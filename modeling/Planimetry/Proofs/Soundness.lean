import Planimetry.Proofs.Area.Nondegeneracy
import Planimetry.Proofs.Area.Source
import Planimetry.Proofs.Repetition

/-! Proofs by the area method are sound: where a placement meets the conditions of the figure and no reported
polynomial vanishes, no denominator in use is zero and the statement holds. -/

namespace Planimetry

theorem Condition.holdsAt_congr {place place' : Label → ℚ × ℚ} {c : Condition}
    (h : ∀ r ∈ c.roles, place r.2 = place' r.2) : c.HoldsAt place ↔ c.HoldsAt place' := by
  have hlookup (r : Label) : (c.roles.lookup r).map place = (c.roles.lookup r).map place' := by
    refine Option.map_congr fun l hl => ?_
    obtain ⟨before, after, heq, -⟩ := List.lookup_eq_some_iff.1 hl
    exact h (r, l) (heq ▸ List.mem_append_right _ List.mem_cons_self)
  unfold HoldsAt
  simp only [hlookup]

namespace Area

variable {p : Protocol} {settings : Settings}

theorem Expr.mem_points {e : Expr} {l : Label} : l ∈ e.points ↔ l ∈ e.labels := by
  unfold points
  rw [List.mem_mergeSort, List.mem_eraseDups]

/-- The points of a statement occur in its expression. -/
theorem mem_points_ofRelation {r : Relation} {e : Expr} (h : Statement.ofRelation r = .ok e) :
    ∀ role ∈ r.condition.roles, role.2 ∈ e.points := by
  intro role hrole
  rw [Expr.mem_points]
  cases r <;> cases h <;>
    simp only [Relation.condition, List.mem_cons, List.not_mem_nil, or_false] at hrole <;>
    rcases hrole with rfl | rfl | rfl | rfl <;>
    simp [Expr.labels, Quantity.labels]

end Area

namespace Protocol

open Area
open Area.Context (HasLabels withSeconds)

variable {p : Protocol} {settings : Settings} {f : Finished} {place : Label → ℚ × ℚ}
  {ratios : Label → ℚ}

/-- How far a proof by the area method gets: what it leaves behind, with the points whose definitions are in
use and the variables of free ratios. -/
def areaProgress (p : Protocol) (settings : Settings) : Progress :=
  (((Prover.ofProtocol p settings).prove none).run
    { protocol := p, events := (Prover.ofProtocol p settings).context.events }).2

theorem proveArea_of_isProved (h : (p.proveArea settings none).outcome = .ok f)
    (hproved : f.result.isProved = true) :
    ∃ proof events, Returns ((Prover.ofProtocol p settings).prove none)
        { protocol := p, events := (Prover.ofProtocol p settings).context.events } proof
        (p.areaProgress settings) ∧ proof.holds = true ∧
      (p.areaProgress settings).protocol.explainAll settings.maxNdgPoints proof.nondegenerate =
        (.ok f.result.conditions, events) := by
  unfold proveArea at h
  unfold Returns areaProgress
  dsimp only at h
  generalize ((Prover.ofProtocol p settings).prove none).run
    { protocol := p, events := (Prover.ofProtocol p settings).context.events } = result at h ⊢
  obtain ⟨outcome, s⟩ := result
  dsimp only [Attempt.after] at h
  cases outcome with
  | error e =>
      dsimp only at h
      split at h
      next =>
        cases h
        cases hproved
      next => cases h
  | ok proof =>
      dsimp only at h
      split at h
      next hholds =>
        unfold concludeHolds at h
        split at h
        next => cases h
        next ns events hns =>
          cases h
          exact ⟨proof, events, rfl, hholds, hns⟩
      next =>
        cases h
        cases hproved

theorem isDefined_denominators (p : Protocol) (l : Label) :
    ∀ e ∈ (Context.ofProtocol p).denominators l, ∀ ν, e.IsDefined ν := by
  intro e he ν
  unfold Context.denominators at he
  cases hd : (Context.ofProtocol p).find? l with
  | none =>
      rw [hd] at he
      cases he
  | some d =>
      rw [hd] at he
      exact (Context.stemsFrom_ofProtocol p).isDefined (List.mem_of_find?_eq_some hd) ν e he

/-- The area method is sound. Let the labels of a figure be different, also from those of the second points
of its lines, and the definitions in use be applicable at all. At every placement that meets the conditions
of the figure and at which no reported polynomial vanishes, no denominator in use is zero and a statement
that is proved holds. -/
theorem holdsAt_of_isProved_area (hp : Appended p) (hlabels : HasLabels p)
    (halign : settings.alignBasePoints = false)
    (h : (p.prove "area" settings none).outcome = .ok f) (hproved : f.result.isProved = true)
    (happlicable : (Context.ofProtocol p).IsApplicable (p.areaProgress settings).used)
    (hplace : p.MeetsAt place ratios) :
    (∃ σ, (p.areaProgress settings).ReadsAt (Context.ofProtocol p).freePoints σ place
      ((Context.ofProtocol p).ratio ratios)) ∧
    ∀ σ, (p.areaProgress settings).ReadsAt (Context.ofProtocol p).freePoints σ place
        ((Context.ofProtocol p).ratio ratios) →
      (∀ n ∈ f.result.conditions, n.polynomial.eval σ ≠ 0) →
      (∀ l ∈ (p.areaProgress settings).used, ∀ e ∈ (Context.ofProtocol p).denominators l,
        e.valueAt (Quantity.valueAt (withSeconds p place) ((Context.ofProtocol p).ratio ratios)) ≠ 0) ∧
      ∃ s relation, p.statement = some s ∧ s.construction = .statement relation ∧
        relation.condition.HoldsAt place := by
  obtain ⟨-, h⟩ := (prove_eq_ok h).resolve_left fun h => absurd h.1 (by decide)
  obtain ⟨proof, events, hrun, hholds, hexplain⟩ := proveArea_of_isProved h hproved
  obtain ⟨pass, hpass⟩ := exists_isPass hp settings
  have hstems := Context.stemsFrom_ofProtocol p
  obtain ⟨place₀, ratio₀, hholds₀, hne₀⟩ := happlicable
  obtain ⟨hstands, hsettled⟩ := Prover.settled_prove hp hpass hrun rfl (isDefined_denominators p) rfl
    rfl hholds₀
  have hexists := Prover.exists_readsAt_of_stands hp hpass halign hstems.free hstands
  refine ⟨hexists _ _, fun σ hσ hreported => ?_⟩
  have hfree : ∀ l ∈ (Context.ofProtocol p).freePoints, withSeconds p place l = place l := by
    intro l hl
    obtain ⟨t, ht, rfl, -⟩ := hstems.free l hl
    exact hlabels.withSeconds_label ht
  have hreads : (p.areaProgress settings).ReadsAt (Context.ofProtocol p).freePoints σ
      (withSeconds p place) ((Context.ofProtocol p).ratio ratios) :=
    ⟨fun l hl xy hxy => (hfree l hl).trans (hσ.point l hl xy hxy), hσ.ratio⟩
  obtain ⟨σ₀, hσ₀⟩ := hexists place₀ ratio₀
  obtain ⟨hholdAt, hne⟩ := Prover.ne_zero_of_settled hsettled (isDefined_denominators p)
    (fun d hd hne => hstems.holdsAt hlabels hp hplace hd hne) hσ₀ hholds₀ hne₀ hreads
    fun q hq hconstant => valueAt_ne_zero_of_explainAll hexplain hq hconstant fun n hn => by
      rw [← Polynomial.eval_eq_valueAt]
      exact hreported n hn
  refine ⟨hne, ?_⟩
  obtain ⟨e, -, -, -, -, -, hstart, -⟩ := Prover.returns_prove hrun
  obtain ⟨s, relation, hs, hrelation, hexpression, hpoints⟩ := Prover.start_of_statement hp hstart
  refine ⟨s, relation, hs, hrelation, ?_⟩
  have hagree : ∀ role ∈ relation.condition.roles, withSeconds p place role.2 = place role.2 := by
    intro role hrole
    obtain ⟨t, ht⟩ :=
      Option.isSome_iff_exists.1 (hpoints _ (mem_points_ofRelation hexpression role hrole))
    obtain ⟨hmem, hlabel⟩ := mem_of_get? ht
    rw [← hlabel]
    exact hlabels.withSeconds_label hmem
  exact (Condition.holdsAt_congr hagree).1 (Prover.holdsAt_of_holds hp hpass hrun rfl
    (isDefined_denominators p) rfl hs hrelation hholds hholdAt hreads)

/-- The definitions in use are applicable if no denominator is zero at a placement that meets the
conditions of the figure. -/
theorem isApplicable_of_meetsAt (hp : Appended p) (hlabels : HasLabels p)
    (hplace : p.MeetsAt place ratios) {used : List Label}
    (hne : ∀ l ∈ used, ∀ e ∈ (Context.ofProtocol p).denominators l,
      e.valueAt (Quantity.valueAt (withSeconds p place) ((Context.ofProtocol p).ratio ratios)) ≠ 0) :
    (Context.ofProtocol p).IsApplicable used := by
  refine ⟨withSeconds p place, (Context.ofProtocol p).ratio ratios, fun l hl d hd => ?_, hne⟩
  refine (Context.stemsFrom_ofProtocol p).holdsAt hlabels hp hplace (List.mem_of_find?_eq_some hd) ?_
  intro e he
  refine hne l hl e ?_
  unfold Context.denominators
  rw [hd]
  exact he

section Figures

variable {q : Protocol} {used : List Label} {candidates : List Polynomial} {σ : Variable → ℚ}

/-- Whether a proof by the area method holds, with some definitions in use, some polynomials that must not
vanish, no variables for free ratios and a protocol left behind. -/
def holdsWith (p : Protocol) (used : List Label) (candidates : List Polynomial) (q : Protocol) : Bool :=
  match ((Prover.ofProtocol p {}).prove none).run
    { protocol := p, events := (Prover.ofProtocol p {}).context.events } with
  | (.ok proof, s) =>
    proof.holds && proof.nondegenerate = candidates && s.used = used && s.ratios = [] && s.protocol = q
  | (.error _, _) => false

/-- Whether no condition that is told of some polynomials vanishes at an assignment. -/
def explainsAt (q : Protocol) (candidates : List Polynomial) (σ : Variable → ℚ) : Bool :=
  (q.explainAll 8 candidates).1.toOption.any fun ns => ns.all fun n => n.polynomial.eval σ ≠ 0

theorem exists_prove_of_holdsWith (h : p.holdsWith used candidates q = true)
    (hexplains : q.explainsAt candidates σ = true) :
    ((p.areaProgress {}).used = used ∧ (p.areaProgress {}).ratios = [] ∧
      (p.areaProgress {}).protocol = q) ∧
    ∃ f, (p.prove "area" {} none).outcome = .ok f ∧ f.result.isProved = true ∧
      ∀ n ∈ f.result.conditions, n.polynomial.eval σ ≠ 0 := by
  unfold holdsWith at h
  unfold prove proveArea areaProgress
  dsimp only [Attempt.after]
  generalize ((Prover.ofProtocol p {}).prove none).run
    { protocol := p, events := (Prover.ofProtocol p {}).context.events } = result at h ⊢
  obtain ⟨outcome, s⟩ := result
  cases outcome with
  | error e => cases h
  | ok proof =>
      simp only [Bool.and_eq_true, decide_eq_true_eq] at h
      obtain ⟨⟨⟨⟨hholds, hcandidates⟩, hused⟩, hratios⟩, hprotocol⟩ := h
      refine ⟨⟨hused, hratios, hprotocol⟩, ?_⟩
      unfold explainsAt at hexplains
      unfold concludeHolds
      dsimp only
      rw [if_pos hholds, hprotocol, hcandidates]
      rcases hexplain : q.explainAll 8 candidates with ⟨r, events⟩
      rw [hexplain] at hexplains
      cases r with
      | error e => cases hexplains
      | ok ns =>
          refine ⟨_, rfl, ?_, fun n hn => of_decide_eq_true (List.all_eq_true.1 hexplains n hn)⟩
          unfold ProofResult.isProved ProofResult.holds
          split <;> rfl

/-- Assigned values are those of the coordinates at a placement. -/
def ReadsFree (q : Protocol) (free : List Label) (σ : Variable → ℚ) (place : Label → ℚ × ℚ) : Prop :=
  ∀ l ∈ free, ∀ xy ∈ (q.get? l).bind Step.coordinates?, place l = (σ xy.1, σ xy.2)

instance {free : List Label} : Decidable (q.ReadsFree free σ place) :=
  inferInstanceAs (Decidable (∀ l ∈ free, ∀ xy ∈ (q.get? l).bind Step.coordinates?, _ = _))

theorem ReadsFree.readsAt {free : List Label} {ratio : Quantity → ℚ} {s : Progress}
    (h : q.ReadsFree free σ place) (hprotocol : s.protocol = q) (hratios : s.ratios = []) :
    s.ReadsAt free σ place ratio :=
  ⟨fun l hl xy hxy => h l hl xy (hprotocol ▸ hxy), hratios ▸ List.forall_mem_nil _⟩

/-- A base, a parallel through one end and a perpendicular to that through the other end. -/
def cornerFigure : Protocol :=
  figure [("A", .point .free), ("B", .point .free), ("l", .set (.lineThrough "A" "B")),
    ("k", .set (.parallel "A" "l")), ("Q", .point (.onLine "k")), ("m", .set (.perpendicular "B" "k")),
    ("P", .point (.intersection "k" "m")), ("s", .statement (.congruent "A" "P" "A" "B"))]

def cornerPlace (q p : ℚ) (l : Label) : ℚ × ℚ :=
  if l = "A" then (0, 0) else if l = "B" then (1, 0) else if l = "Q" then (q, 0) else (p, 0)

def cornerValue (v : Variable) : ℚ := if v = .free 3 then 1 else 0

/-- A multiple of the square of the base. -/
def cornerCondition : Polynomial :=
  let dx := Polynomial.ofVariable (.free 3) - .ofVariable (.free 1)
  let dy := Polynomial.ofVariable (.free 4) - .ofVariable (.free 2)
  (dx * dx + dy * dy).scale (-1 / 2)

theorem holdsWith_cornerFigure : cornerFigure.holdsWith ["P", "B[m]", "A[k]"] [cornerCondition]
    (cornerFigure.startWu {}).run.2.protocol = true := by
  rw [holdsWith, Prover.run_prove rfl rfl (by decide)]
  decide +kernel

theorem explainsAt_cornerFigure :
    (cornerFigure.startWu {}).run.2.protocol.explainsAt [cornerCondition] cornerValue = true := by
  decide +kernel

/-- Where the random point is not the end of the base, parallel and perpendicular meet in the other end. -/
theorem holdsAt_cornerFigure : HasLabels cornerFigure ∧
    cornerFigure.MeetsAt (cornerPlace 2 1) (fun _ => 2) ∧
    ∃ f, (cornerFigure.prove "area" {} none).outcome = .ok f ∧ f.result.isProved = true ∧
      (∀ n ∈ f.result.conditions, n.polynomial.eval cornerValue ≠ 0) ∧
      (∀ l ∈ (cornerFigure.areaProgress {}).used,
        ∀ e ∈ (Context.ofProtocol cornerFigure).denominators l,
          e.valueAt (Quantity.valueAt (withSeconds cornerFigure (cornerPlace 2 1))
            ((Context.ofProtocol cornerFigure).ratio fun _ => 2)) ≠ 0) ∧
      ∃ s relation, cornerFigure.statement = some s ∧ s.construction = .statement relation ∧
        relation.condition.HoldsAt (cornerPlace 2 1) := by
  obtain ⟨⟨hused, hratios, hprotocol⟩, f, hf, hproved, hreported⟩ :=
    exists_prove_of_holdsWith holdsWith_cornerFigure explainsAt_cornerFigure
  have hlabels : HasLabels cornerFigure := by decide +kernel
  have hplace : cornerFigure.MeetsAt (cornerPlace 2 1) fun _ => 2 :=
    ⟨⟨by decide +kernel, by decide +kernel⟩, by decide +kernel⟩
  have happlicable : (Context.ofProtocol cornerFigure).IsApplicable
      (cornerFigure.areaProgress {}).used :=
    isApplicable_of_meetsAt (appended_figure _) hlabels hplace (by rw [hused]; decide +kernel)
  have hfree : (cornerFigure.startWu {}).run.2.protocol.ReadsFree
      (Context.ofProtocol cornerFigure).freePoints cornerValue (cornerPlace 2 1) := by
    decide +kernel
  exact ⟨hlabels, hplace, f, hf, hproved, hreported,
    (holdsAt_of_isProved_area (appended_figure _) hlabels rfl hf hproved happlicable hplace).2 _
      (hfree.readsAt hprotocol hratios) hreported⟩

/-- A statement is proved, but fails at a placement that fits the figure and at which no reported polynomial
vanishes. -/
def FailsAt (p : Protocol) (place : Label → ℚ × ℚ) (ratios : Label → ℚ) : Prop :=
  Appended p ∧ p.FitsAt place ratios ∧ ∃ f σ, (p.prove "area" {} none).outcome = .ok f ∧
    f.result.isProved = true ∧
    (p.areaProgress {}).ReadsAt (Context.ofProtocol p).freePoints σ place
      ((Context.ofProtocol p).ratio ratios) ∧
    (∀ n ∈ f.result.conditions, n.polynomial.eval σ ≠ 0) ∧
    ∃ s relation, p.statement = some s ∧ s.construction = .statement relation ∧
      ¬relation.condition.HoldsAt place

theorem failsAt_of_holdsWith {ratios : Label → ℚ} (hp : Appended p) (hfits : p.FitsAt place ratios)
    (h : p.holdsWith used candidates q = true) (hexplains : q.explainsAt candidates σ = true)
    (hfree : q.ReadsFree (Context.ofProtocol p).freePoints σ place)
    (hfails : ∃ s relation, p.statement = some s ∧ s.construction = .statement relation ∧
      ¬relation.condition.HoldsAt place) : p.FailsAt place ratios := by
  obtain ⟨⟨-, hratios, hprotocol⟩, f, hf, hproved, hreported⟩ := exists_prove_of_holdsWith h hexplains
  exact ⟨hp, hfits, f, σ, hf, hproved, hfree.readsAt hprotocol hratios, hreported, hfails⟩

/-- A free point under the label of the second point of a line. -/
def lookalikeFigure : Protocol :=
  figure [("A", .point .free), ("B", .point .free), ("C", .point .free), ("C[k]", .point .free),
    ("l", .set (.lineThrough "A" "B")), ("k", .set (.parallel "C" "l")), ("Q", .point (.onLine "k")),
    ("s", .statement (.parallel "C" "C[k]" "A" "B"))]

def lookalikePlace (l : Label) : ℚ × ℚ :=
  if l = "A" then (0, 0) else if l = "B" then (1, 0) else if l = "C[k]" then (0, 2) else (0, 1)

theorem holdsWith_lookalikeFigure :
    lookalikeFigure.holdsWith ["C[k]"] [] lookalikeFigure = true := by
  rw [holdsWith, Prover.run_prove rfl rfl (by decide)]
  decide +kernel

/-- Where the random point coincides with the end of the base, the perpendicular has no direction, and
its common point with the parallel can be anywhere on that. The second failure is a collision of labels, as
with a relabelling or the lines that get a second point: a point of the figure is taken for the second point
of a line that has the same label, and nothing keeps it on that line. -/
theorem failsAt_figures : cornerFigure.FailsAt (cornerPlace 0 5) (fun _ => 0) ∧
    lookalikeFigure.FailsAt lookalikePlace (fun _ => 0) := by
  constructor
  · exact failsAt_of_holdsWith (appended_figure _) ⟨by decide +kernel, by decide +kernel⟩
      holdsWith_cornerFigure explainsAt_cornerFigure (by decide +kernel)
      ⟨_, _, rfl, rfl, by decide +kernel⟩
  · exact failsAt_of_holdsWith (σ := fun _ => 0) (appended_figure _)
      ⟨by decide +kernel, by decide +kernel⟩ holdsWith_lookalikeFigure (by decide +kernel)
      (by decide +kernel) ⟨_, _, rfl, rfl, by decide +kernel⟩

end Figures

end Protocol
end Planimetry
