import Planimetry.Proofs.Area.Correspondence
import Planimetry.Proofs.Repetition
import Planimetry.Proofs.Totality
import Planimetry.Proofs.Triangular.Relabelling

/-! Verdicts under other names: they stay the same, and so do failures, as long as no object has a label that
statements get, and the second points that the area method adds get labels of their own. -/

namespace Planimetry

/-- The verdict of an attempt that does not fail. -/
def Attempt.verdict? (a : Attempt) : Option Verdict := a.outcome.toOption.map fun f => f.result.verdict

/-- The labels of a statement that stands apart from the entries, and of those with which polynomials are
compared. -/
def reservedLabels : List Label :=
  "statement" :: (Kind.all.filter fun k => k.category = .statement).map fun k => "ndg:" ++ k.name

theorem mem_reservedLabels (r : Relation) :
    "ndg:" ++ (Construction.statement r).kind.name ∈ reservedLabels := by
  refine List.mem_cons_of_mem _ (List.mem_map.2 ⟨_, List.mem_filter.2 ⟨?_, ?_⟩, rfl⟩)
  · cases r <;> simp [Construction.kind, Kind.all]
  · cases r <;> rfl

namespace Protocol

variable {p q : Protocol} {f g : Label → Label} {settings : Settings}

/-- The labels of the objects are different, and no statement gets one of them. -/
structure HasOwnLabels (p : Protocol) : Prop where
  nodup : (p.steps.map Step.label).Nodup
  unreserved : ∀ l ∈ p.steps.map Step.label, l ∉ reservedLabels

theorem HasOwnLabels.of_labels (hp : p.HasOwnLabels)
    (h : q.steps.map Step.label = p.steps.map Step.label) : q.HasOwnLabels :=
  ⟨h ▸ hp.nodup, h ▸ hp.unreserved⟩

theorem map_label_relabel (f g : Label → Label) (p : Protocol) :
    (p.relabel f g).steps.map Step.label = (p.steps.map Step.label).map f := by
  unfold relabel
  rw [List.map_map, List.map_map]
  rfl

/-- Conditions can be put into words. -/
theorem verdict?_concludeHolds (hp : p.HasOwnLabels) {candidates : List Polynomial}
    {result : List Nondegeneracy → ProofResult}
    (hresult : ∀ ns, (result ns).verdict = if ns.isEmpty then .holds else .holdsUnderNdg) :
    (p.concludeHolds settings candidates result).verdict? = some (holdsUnless candidates) := by
  unfold concludeHolds
  split
  next e events hexplain =>
    obtain ⟨e', -, r, hmem, -⟩ := isMislabelled_of_explainOnto hp.nodup hexplain
    exact absurd (mem_reservedLabels r) (hp.unreserved _ hmem)
  next ns events hns =>
    refine congr_arg some ((hresult ns).trans ?_)
    rw [isEmpty_of_explainAll hns]
    rfl

theorem verdict?_concludeRefuted (method : String) (r : Polynomial) :
    (p.concludeRefuted settings method r).verdict? = some .doesNotHold := rfl

/-! ### Triangulation -/

section Wu

variable {t : Transformation}

theorem verdict?_proveWu (hrun : (p.startWu settings).run = (none, t)) :
    (p.proveWu settings).verdict? = (Transformation.statementPolynomials t.protocol).toOption.bind
      fun statements => (reduceWu settings t statements).verdict? := by
  unfold startWu at hrun
  unfold proveWu
  rw [hrun]
  dsimp only
  cases Transformation.statementPolynomials t.protocol <;> rfl

/-- The verdict on a statement with the same polynomials. -/
theorem verdict?_reduceWu_relabel (hown : t.protocol.HasOwnLabels)
    (hown' : (t.protocol.relabel f g).HasOwnLabels) (statements : List Polynomial) :
    (reduceWu settings (t.relabel f g) statements).verdict? =
      (reduceWu settings t statements).verdict? := by
  have hsystem : (t.relabel f g).system = t.system.map (Hypothesis.relabel f) := rfl
  have hfactors : (t.relabel f g).factors.map Hypothesis.polynomial =
      t.factors.map Hypothesis.polynomial := List.map_map
  unfold reduceWu
  rw [hsystem, Triangular.ofSystem_relabel]
  split
  next => rfl
  next =>
    cases Triangular.ofSystem settings.maxTerms t.system with
    | error e => rfl
    | ok system =>
        dsimp only [Except.map]
        rw [Triangular.reduce_relabel]
        cases statements.mapM (system.reduce settings.maxTerms) with
        | error e => rfl
        | ok remainders =>
            have hinconsistent : (system.relabel f).isInconsistent = system.isInconsistent := rfl
            change (concludeWu settings (t.relabel f g) (system.relabel f) remainders).verdict? =
              (concludeWu settings t system remainders).verdict?
            unfold concludeWu
            rw [hinconsistent, Triangular.initials_relabel, hfactors]
            dsimp only
            split
            next => rfl
            next =>
              cases remainders.find? fun r => !r.isZero with
              | some r =>
                  dsimp only
                  split <;> rfl
              | none =>
                  exact (verdict?_concludeHolds hown' fun _ => rfl).trans
                    (verdict?_concludeHolds hown fun _ => rfl).symm

/-- The verdict by triangulation under other names. -/
theorem verdict?_proveWu_relabel (hf : f.Injective) (hp : Appended p) (hown : p.HasOwnLabels)
    (hown' : (p.relabel f g).HasOwnLabels)
    (hstatement : ∀ s ∈ p.statement, ∀ u ∈ p.steps, f u.label = g s.label ↔ u.label = s.label) :
    ((p.relabel f g).proveWu settings).verdict? = (p.proveWu settings).verdict? := by
  obtain ⟨t, ht⟩ := exists_isPass hp settings
  have hrun' : ((p.relabel f g).startWu settings).run = (none, t.relabel f g) := by
    have hrun := Transformation.run_relabel hf g (p.startWu settings)
    rwa [ht.run] at hrun
  have hlabels := map_label_of_core ht.core
  have hlabels' : (t.protocol.relabel f g).steps.map Step.label =
      (p.relabel f g).steps.map Step.label := by
    rw [map_label_relabel, map_label_relabel, hlabels]
  have hpolynomials := Transformation.statementPolynomials_relabel (g := g) hf t.protocol
    fun s hs => by
      rw [ht.statement] at hs
      obtain ⟨relation, hrelation⟩ := hp.construction_of_statement hs
      refine ⟨relation, hrelation, fun l hl => ?_⟩
      obtain ⟨-, hfault⟩ := hp.isFaultless s (List.mem_append_right _ (Option.mem_toList.2 hs))
      rw [relation.generators_condition, ← hrelation] at hl
      obtain ⟨u, hu, rfl, -⟩ := exists_earlier_of_fault?_eq_none hfault hl
      exact hstatement s hs u hu
  have hprotocol : (t.relabel f g).protocol = t.protocol.relabel f g := rfl
  rw [verdict?_proveWu hrun', verdict?_proveWu ht.run, hprotocol, hpolynomials]
  cases Transformation.statementPolynomials t.protocol with
  | error e => rfl
  | ok statements =>
      exact verdict?_reduceWu_relabel (hown.of_labels hlabels) (hown'.of_labels hlabels') statements

end Wu

/-! ### The area method -/

section Area

open Area
open Area.Context (HasLabels)

variable {pass : Transformation}

theorem labels_relabel (f : Label → Label) (e : Expr) : (e.relabel f).labels = e.labels.map f := by
  induction e with
  | number q => rfl
  | atom q => cases q <;> rfl
  | add l r ihl ihr | sub l r ihl ihr | mul l r ihl ihr | div l r ihl ihr =>
      simp only [Expr.relabel, Expr.labels, ihl, ihr, List.map_append]
  | neg e ih => exact ih
  | elim e p ih => exact ih

theorem ofConstruction_relabel (f : Label → Label) (c : Construction) :
    (Statement.ofConstruction (c.relabel f)).toOption =
      (Statement.ofConstruction c).toOption.map (Expr.relabel f) := by
  cases c with
  | point rule => rfl
  | set locus => rfl
  | statement relation => cases relation <;> rfl

/-- A proof starts from the statement under the other names. -/
theorem start_relabel (hf : f.Injective) (p : Protocol) :
    (Prover.start (p.relabel f g) none).toOption =
      (Prover.start p none).toOption.map (Expr.relabel f) := by
  have hunknown (e : Expr) : ((e.relabel f).points.filter fun l => !(p.relabel f g).contains l) = [] ↔
      (e.points.filter fun l => !p.contains l) = [] := by
    simp only [List.filter_eq_nil_iff, Expr.mem_points, labels_relabel, List.forall_mem_map,
      contains_relabel hf]
  have hstatement : (p.relabel f g).statement =
      p.statement.map fun s => { s.relabel f with label := g s.label } := rfl
  unfold Prover.start
  rw [hstatement]
  cases p.statement with
  | none => rfl
  | some s =>
      have hconstruction : (s.relabel f).construction = s.construction.relabel f := rfl
      simp only [Option.map_some, hconstruction, toOption_bind, ofConstruction_relabel,
        Option.bind_map, Option.map_bind]
      refine Option.bind_congr fun e _ => ?_
      have hiff := hunknown e
      simp only [Function.comp_apply]
      revert hiff
      generalize (e.relabel f).points.filter _ = unknown', e.points.filter _ = unknown
      intro hiff
      cases unknown with
      | nil =>
          obtain rfl := hiff.2 rfl
          rfl
      | cons l ls =>
          cases unknown' with
          | nil => cases hiff.1 rfl
          | cons l' ls' => rfl

/-- Proofs under the names of objects and under other ones are twins, if second points have labels of their
own under both. -/
theorem exists_isTwin (settings : Settings) (hp : Appended p) (hp' : Appended (p.relabel f g))
    (hlabels : HasLabels p) (hlabels' : HasLabels (p.relabel f g)) : ∃ π pass pass', Prover.IsTwin π
      (.ofProtocol p settings) (.ofProtocol (p.relabel f g) settings) p (p.relabel f g) pass pass' := by
  obtain ⟨π, hsteps, hseconds⟩ := Context.exists_perm_namesSeconds hp hlabels hlabels'
  rw [hp.relabel_congr hsteps g] at hp' ⊢
  obtain ⟨pass, hpass⟩ := exists_isPass hp settings
  obtain ⟨pass', hpass'⟩ := exists_isPass hp' settings
  have hrun := Transformation.run_relabel π.injective g (p.startWu settings)
  rw [hpass.run] at hrun
  have hsame : pass' = pass.relabel π g := congr_arg Prod.snd (hpass'.run.symm.trans hrun)
  refine ⟨π, pass, pass', rfl, Context.resembles_ofProtocol π.injective hseconds,
    Context.isRegular_ofProtocol hp.accepted, Context.isRegular_ofProtocol hp'.accepted, hp, hp', hpass,
    hpass', start_relabel π.injective p, fun l => ?_⟩
  have hprotocol : pass'.protocol = pass.protocol.relabel π g := by rw [hsame]; rfl
  rw [hprotocol, get?_relabel π.injective, Option.bind_map]
  exact Option.bind_congr fun t _ => t.coordinates?_relabel π

theorem HasOwnLabels.of_stands (hp : p.HasOwnLabels) (hpass : p.IsPass settings pass) {c : Context}
    {s : Progress} (hs : s.Stands c p pass.protocol) : s.protocol.HasOwnLabels := by
  rcases hs with ⟨rfl, -⟩ | hs
  · exact hp
  · exact hp.of_labels (hs.steps ▸ map_label_of_core hpass.core)

theorem holdsUnless_congr {qs qs' : List Polynomial}
    (h : qs'.map Polynomial.isConstant = qs.map Polynomial.isConstant) :
    holdsUnless qs' = holdsUnless qs := by
  have hall (qs : List Polynomial) :
      qs.all Polynomial.isConstant = (qs.map Polynomial.isConstant).all id := by
    rw [List.all_map]
    rfl
  unfold holdsUnless
  rw [hall, hall, h]

/-- The verdict by the area method under other names. -/
theorem verdict?_proveArea_relabel (hp : Appended p) (hp' : Appended (p.relabel f g))
    (hown : p.HasOwnLabels) (hown' : (p.relabel f g).HasOwnLabels) (hlabels : HasLabels p)
    (hlabels' : HasLabels (p.relabel f g)) :
    ((p.relabel f g).proveArea settings none).verdict? = (p.proveArea settings none).verdict? := by
  obtain ⟨π, pass, pass', h⟩ := exists_isTwin settings hp hp' hlabels hlabels'
  have htogether := h.together_prove
    (s := { protocol := p, events := (Prover.ofProtocol p settings).context.events })
    (t := { protocol := p.relabel f g
            events := (Prover.ofProtocol (p.relabel f g) settings).context.events })
    ⟨rfl, .inl ⟨rfl, rfl⟩, .inl ⟨rfl, rfl⟩⟩ rfl rfl
  unfold Together at htogether
  unfold proveArea
  dsimp only
  revert htogether
  generalize ((Prover.ofProtocol p settings).prove none).run _ = x,
    ((Prover.ofProtocol (p.relabel f g) settings).prove none).run _ = y
  rcases x with ⟨e | proof, s⟩ <;> rcases y with ⟨e' | proof', s'⟩ <;> intro htogether
  · dsimp only
    rw [show e'.isInconclusive = e.isInconclusive from htogether]
    split <;> rfl
  · exact htogether.elim
  · exact htogether.elim
  · obtain ⟨hholds, hconstant, hbeside⟩ := htogether
    dsimp only
    rw [hholds]
    split
    next =>
      have hkept := hown.of_stands h.isPass hbeside.stands
      have hkept' := hown'.of_stands h.isPass' hbeside.stands'
      exact ((verdict?_concludeHolds hkept' fun _ => rfl).trans
        (congr_arg some (holdsUnless_congr hconstant))).trans
          (verdict?_concludeHolds hkept fun _ => rfl).symm
    next => exact (verdict?_concludeRefuted ..).trans (verdict?_concludeRefuted ..).symm

end Area

/-- No object has a label that statements get, and for the area method the labels of second points are
different too. -/
structure IsClear (method : String) (p : Protocol) : Prop where
  unreserved : ∀ l ∈ p.steps.map Step.label, l ∉ reservedLabels
  seconds : method = "area" → Area.Context.HasLabels p

theorem IsClear.hasOwnLabels {method : String} (h : p.IsClear method) (hp : Appended p) :
    p.HasOwnLabels := ⟨hp.ordered.labels, h.unreserved⟩

/-- The verdict on a protocol under other names. -/
theorem verdict?_relabel {method : String} (hf : f.Injective) (hp : Appended p)
    (hp' : Appended (p.relabel f g)) (hclear : p.IsClear method) (hclear' : (p.relabel f g).IsClear method)
    (hstatement : ∀ s ∈ p.statement, ∀ u ∈ p.steps, f u.label = g s.label ↔ u.label = s.label) :
    ((p.relabel f g).prove method settings none).verdict? = (p.prove method settings none).verdict? := by
  have hown := hclear.hasOwnLabels hp
  have hown' := hclear'.hasOwnLabels hp'
  unfold prove
  split
  next => exact verdict?_proveWu_relabel hf hp hown hown' hstatement
  next =>
    exact verdict?_proveArea_relabel hp hp' hown hown' (hclear.seconds rfl) (hclear'.seconds rfl)
  next => rfl

end Protocol

namespace Built

variable {f : Label → Label} {method : String}

/-- A statement that stands apart from the entries is labelled as such. -/
theorem label_statement {entries : List Entry} {r : Request} {s : Step}
    (hfaultless : (ofEntries entries (some r)).diagnostics = [])
    (h : (ofEntries entries (some r)).protocol.statement = some s) : s.label = "statement" := by
  unfold ofEntries at hfaultless h
  dsimp only [Option.map_some] at hfaultless h
  cases hstate : (Protocol.takeAll {} entries).1.state r with
  | error e => simp [hstate, diagnostics] at hfaultless
  | ok q =>
      rw [hstate] at h
      obtain ⟨construction, hset⟩ := Protocol.exists_of_make_eq_ok (e := ⟨"statement", r⟩) hstate
      unfold Protocol.setStatement at hset
      split at hset
      next =>
        split at hset
        next => cases hset
        next =>
          cases hset
          exact (congr_arg Step.label (Option.some.inj h)).symm
      next => cases hset

/-- The verdict on entries and a statement, or the failure, does not depend on the names of objects, as long as
none of them is a label that statements get, and for the area method all labels are different, those of second
points included. -/
theorem verdict_prove_relabel (hf : f.Injective) (entries : List Entry) (statement : Option Request)
    (method : String) (settings : Settings)
    (hclear : (ofEntries entries statement).protocol.IsClear method)
    (hclear' : (ofEntries (entries.map (Entry.relabel f))
      (statement.map (Request.relabel f))).protocol.IsClear method) :
    ((ofEntries (entries.map (Entry.relabel f)) (statement.map (Request.relabel f))).prove
        method settings none).verdict? =
      ((ofEntries entries statement).prove method settings none).verdict? := by
  obtain ⟨hdiagnostics, hprotocol⟩ := ofEntries_relabel hf entries statement
  have hp := appended_ofEntries entries statement
  have hp' := appended_ofEntries (entries.map (Entry.relabel f)) (statement.map (Request.relabel f))
  by_cases hfaultless : (ofEntries entries statement).diagnostics = []
  · have hsame := hprotocol hfaultless
    have hfaultless' := hdiagnostics.2 hfaultless
    unfold prove
    rw [hfaultless, hfaultless', hsame]
    rw [hsame] at hp' hclear'
    refine Protocol.verdict?_relabel hf hp hp' hclear hclear' fun s hs u hu => ?_
    cases statement with
    | none => exact hf.eq_iff
    | some r =>
        have hreserved : s.label ∈ reservedLabels :=
          label_statement hfaultless hs ▸ List.mem_cons_self
        have hu := List.mem_map_of_mem (f := Step.label) hu
        have hu' := List.mem_map_of_mem (f := f) hu
        rw [← Protocol.map_label_relabel f id] at hu'
        -- neither name of an object is that of the statement
        exact ⟨fun heq : f u.label = s.label => absurd hreserved (heq ▸ hclear'.unreserved _ hu'),
          fun heq => absurd hreserved (heq ▸ hclear.unreserved _ hu)⟩
  · have hfaultless' := mt hdiagnostics.1 hfaultless
    unfold prove
    rw [if_neg (by simpa using hfaultless'), if_neg (by simpa using hfaultless)]
    rfl

/-- A random point on the parallel to a line through a point. -/
def railEntries : List Entry :=
  [⟨"A", "free_point", []⟩, ⟨"B", "free_point", []⟩, ⟨"C", "free_point", []⟩,
    ⟨"l", "line_through_two_points", [("a", "A"), ("b", "B")]⟩,
    ⟨"k", "parallel_line", [("point", "C"), ("line", "l")]⟩,
    ⟨"P", "random_point_on_line", [("line", "k")]⟩]

/-- The statement that the point is on a parallel to the line. -/
def railRequest : Request := ⟨"parallel_lines", [("A", "A"), ("B", "B"), ("C", "C"), ("D", "P")]⟩

theorem verdict?_railEntries :
    ((ofEntries railEntries (some railRequest)).prove "area" {} none).verdict? = some .holds := by
  unfold prove Protocol.prove Protocol.proveArea
  dsimp only
  rw [Area.Prover.run_prove rfl rfl (by decide)]
  decide +kernel

/-- The verdict stays when two points swap their names. -/
theorem verdict_prove_relabel_railEntries :
    ((ofEntries (railEntries.map (Entry.relabel (Equiv.swap "A" "P")))
      ((some railRequest).map (Request.relabel (Equiv.swap "A" "P")))).prove "area" {} none).verdict? =
        some .holds :=
  (verdict_prove_relabel (Equiv.swap "A" "P").injective railEntries (some railRequest) "area" {}
    ⟨by decide +kernel, fun _ => by decide +kernel⟩
    ⟨by decide +kernel, fun _ => by decide +kernel⟩).trans verdict?_railEntries

/-- The midpoint of a side. -/
def sideEntries : List Entry :=
  [⟨"A", "free_point", []⟩, ⟨"B", "free_point", []⟩, ⟨"M", "midpoint", [("a", "A"), ("b", "B")]⟩]

/-- The statement that the midpoint is on the side. -/
def sideRequest : Request := ⟨"collinear_points", [("A", "A"), ("B", "B"), ("C", "M")]⟩

/-- A midpoint with the label of the statement is taken for that, which has no coordinates. -/
theorem verdict_ne_sideEntries : Function.Injective (Equiv.swap "M" "statement") ∧
    ((ofEntries sideEntries (some sideRequest)).prove "wu" {} none).verdict? = some .holds ∧
    ((ofEntries (sideEntries.map (Entry.relabel (Equiv.swap "M" "statement")))
      ((some sideRequest).map (Request.relabel (Equiv.swap "M" "statement")))).prove
        "wu" {} none).verdict? = none :=
  ⟨(Equiv.swap "M" "statement").injective, by decide +kernel, by decide +kernel⟩

end Built

end Planimetry
