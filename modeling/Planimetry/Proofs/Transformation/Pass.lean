import Planimetry.Proofs.Transformation.Basic
import Planimetry.Proofs.Triangular.Elimination

/-! The whole pass: its system vanishes at every placement that meets the committed conditions, unless
a factor that was divided out vanishes there. -/

namespace Planimetry

/-- Where a variable gets its value: the coordinate to which it was first given. -/
def coordinateValue (cs : List Commitment) (place : Label → ℚ × ℚ) (v : Variable) : ℚ :=
  match cs.find? fun c => c.x = v || c.y = v with
  | some c => if c.x = v then (place c.label).1 else (place c.label).2
  | none => 0

/-- The second free point has the second coordinate of the first. -/
def Protocol.IsAligned (p : Protocol) (place : Label → ℚ × ℚ) : Prop :=
  ∀ first second rest, p.steps.filter (fun s => s.kind == .freePoint) = first :: second :: rest →
    (place second.label).2 = (place first.label).2

section CoordinateValue

variable {done rest : List Commitment} {c : Commitment} {place : Label → ℚ × ℚ} {v : Variable}

theorem find?_of_fresh (hdone : ∀ d ∈ done, d.x ≠ v ∧ d.y ≠ v) (hc : c.x = v ∨ c.y = v) :
    ((done ++ c :: rest).find? fun c => c.x = v || c.y = v) = some c := by
  rw [List.find?_append, List.find?_eq_none.2, Option.none_or, List.find?_cons_of_pos]
  · simpa using hc
  · intro d hd
    simpa using hdone d hd

theorem coordinateValue_x (hdone : ∀ d ∈ done, d.x ≠ c.x ∧ d.y ≠ c.x) :
    coordinateValue (done ++ c :: rest) place c.x = (place c.label).1 := by
  unfold coordinateValue
  rw [find?_of_fresh hdone (.inl rfl)]
  exact if_pos rfl

theorem coordinateValue_y (hdone : ∀ d ∈ done, d.x ≠ c.y ∧ d.y ≠ c.y) (hne : c.x ≠ c.y) :
    coordinateValue (done ++ c :: rest) place c.y = (place c.label).2 := by
  unfold coordinateValue
  rw [find?_of_fresh hdone (.inr rfl)]
  exact if_neg hne

end CoordinateValue

namespace Protocol

variable {p q : Protocol} {place : Label → ℚ × ℚ} {align : Bool} {position : ℕ} {y : Variable}
  {s : Step}

theorem map_label_filter_of_core (h : q.steps.map Step.core = p.steps.map Step.core) :
    (q.steps.filter fun s => s.kind == .freePoint).map Step.label =
      (p.steps.filter fun s => s.kind == .freePoint).map Step.label := by
  have hfilter (r : Protocol) : (r.steps.filter fun s => s.kind == .freePoint).map Step.label =
      ((r.steps.map Step.core).filter fun c => c.2.1.kind == .freePoint).map Prod.fst := by
    rw [List.filter_map, List.map_map]
    rfl
  rw [hfilter, hfilter, h]

theorem IsAligned.of_core (hp : p.IsAligned place)
    (h : q.steps.map Step.core = p.steps.map Step.core) : q.IsAligned place := by
  intro first second rest hq
  have hlabels := map_label_filter_of_core h
  rw [hq] at hlabels
  cases hp' : p.steps.filter fun s => s.kind == .freePoint with
  | nil => simp [hp'] at hlabels
  | cons first' tail =>
      cases tail with
      | nil => simp [hp'] at hlabels
      | cons second' rest' =>
          simp only [hp', List.map_cons, List.cons.injEq] at hlabels
          rw [hlabels.1, hlabels.2.1]
          exact hp first' second' rest' hp'

/-- An aligned point takes the second coordinate of the first free point, and is the second one. -/
theorem alignedY_eq_some (h : p.alignedY align position = some y)
    (hs : p.steps[position]? = some s) :
    align = true ∧ ∃ first rest, p.steps.filter (fun s => s.kind == .freePoint) = first :: s :: rest ∧
      first ∈ p.steps ∧ first.placement.y = some y := by
  unfold alignedY at h
  split at h
  next first second rest hfree =>
    split at h
    next halign =>
      rw [Bool.and_eq_true, beq_iff_eq] at halign
      have hmem : ∀ e ∈ first :: second :: rest, p.steps[e.2]? = some e.1 := fun e he =>
        List.mem_zipIdx_iff_getElem?.1 (List.mem_filter.1 (hfree ▸ he)).1
      have hsecond : second.1 = s := by
        have hat := hmem second (by simp)
        rw [halign.2, hs] at hat
        exact (Option.some.inj hat).symm
      refine ⟨halign.1, first.1, rest.map Prod.fst, ?_, ?_, h⟩
      · have hfst : p.steps.filter (fun s => s.kind == .freePoint) =
            (p.steps.zipIdx.filter fun s => s.1.kind == .freePoint).map Prod.fst := by
          rw [← List.zipIdx_map_fst 0 p.steps, List.filter_map, List.zipIdx_map_fst]
          rfl
        rw [hfst, hfree, List.map_cons, List.map_cons, hsecond]
      · exact List.mem_of_getElem? (hmem first List.mem_cons_self)
    next => cases h
  next => cases h

end Protocol
namespace Trial

variable {t : Trial}

@[simp] theorem hypotheses_settle (t : Trial) : t.settle.hypotheses = t.hypotheses := by
  unfold settle
  split <;> rfl

@[simp] theorem factors_settle (t : Trial) : t.settle.factors = t.factors := by
  unfold settle
  split <;> rfl

@[simp] theorem core_settle (t : Trial) : t.settle.point.core = t.point.core := by
  unfold settle
  split <;> rfl

@[simp] theorem x_settle (t : Trial) : t.settle.point.placement.x = t.point.placement.x := by
  unfold settle
  split <;> rfl

@[simp] theorem y_settle (t : Trial) : t.settle.point.placement.y = t.point.placement.y := by
  unfold settle
  split <;> rfl

end Trial

theorem forall_mem_modify {P : Step → Prop} {p : Protocol} {i : ℕ} {s : Step}
    (hp : ∀ t ∈ p.steps, P t) (hs : P s) : ∀ t ∈ (p.modify i fun _ => s).steps, P t := by
  intro t ht
  obtain ⟨j, hj⟩ := List.mem_iff_getElem?.1 ht
  unfold Protocol.modify at hj
  rw [List.getElem?_modify] at hj
  obtain ⟨u, hu, heq⟩ := Option.map_eq_some_iff.1 hj
  split at heq
  · exact heq ▸ hs
  · exact heq ▸ hp u (List.mem_of_getElem? hu)

namespace Transformation

/-- What a pass over a protocol keeps: steps change in their coordinates only, these are variables that
were given out, and no factor is a constant. -/
structure IsConsistent (p : Protocol) (t : Transformation) : Prop where
  core : t.protocol.steps.map Step.core = p.steps.map Step.core
  statement : t.protocol.statement = p.statement
  known : Trial.CoordinatesSatisfy t.protocol.Knows t.protocol
  factors : ∀ h ∈ t.factors, h.polynomial.isConstant = false

namespace Commits

variable {p p' : Protocol} {t : Transformation} {position : ℕ} {c : Commitment} {s : Step}
  {trial : Trial} {σ : Variable → ℚ} {place : Label → ℚ × ℚ}

/-- The trial with which the work on a commitment begins. -/
def initial (c : Commitment) (s : Step) : Trial :=
  { point := { s with placement := ⟨some c.x, some c.y, .unchanged⟩ } }

theorem mem (h : t.Commits position c s p' trial) : s ∈ t.protocol.steps :=
  List.mem_of_getElem? h.step

theorem steps (h : t.Commits position c s p' trial) : p'.steps = t.protocol.steps :=
  (Protocol.freshCoordinates_eq h.coordinates).1

theorem core_trial (h : t.Commits position c s p' trial) : trial.point.core = s.core :=
  Trial.core_meet h.meet

theorem label_trial (h : t.Commits position c s p' trial) : trial.point.label = s.label :=
  congr_arg Prod.fst h.core_trial

theorem places (h : t.Commits position c s p' trial) (hp : t.protocol.Ordered) :
    c.alternative.length ≤ 2 ∧ ∀ d ∈ c.alternative, d.Places s.label := by
  rcases h.alternative with hnil | ⟨rule, ways, hrule, hways, hmem⟩
  · rw [hnil]
    exact ⟨by simp, List.forall_mem_nil _⟩
  · exact Protocol.places_of_mem_alternatives hp h.mem hrule hways hmem

/-- Only free points get two free coordinates, and these have no conditions. -/
theorem freeCoordinates_lt (h : t.Commits position c s p' trial) (hne : c.alternative ≠ []) :
    s.kind.spec.freeCoordinates < 2 := by
  rcases h.alternative with hnil | ⟨rule, ways, hrule, hways, hmem⟩
  · exact absurd hnil hne
  · unfold Step.kind
    rw [hrule]
    cases rule with
    | free =>
        rw [Protocol.alternatives_of_point hrule] at hways
        cases hways
        cases hmem
    | _ => simp [Construction.kind, Kind.spec]

theorem isFresh (h : t.Commits position c s p' trial)
    (hknown : Trial.CoordinatesSatisfy t.protocol.Knows t.protocol) (hne : c.alternative ≠ []) :
    (initial c s).IsFresh p' c.x c.y := by
  obtain ⟨hsteps, -, ⟨hx, -⟩, hy⟩ := Protocol.freshCoordinates_eq h.coordinates
  have hlt := h.freeCoordinates_lt hne
  rcases hy with ⟨hy, -, hxy⟩ | ⟨-, htwo⟩
  · refine ⟨h.isPoint, rfl, rfl, hxy, fun u hu uv huv => ?_⟩
    rw [hsteps] at hu
    obtain ⟨hux, huy⟩ := Trial.coordinates?_eq_some huv
    have hfst := (hknown u hu).1 _ hux
    have hsnd := (hknown u hu).2 _ huy
    exact ⟨⟨fun heq => hx (heq ▸ hfst), fun heq => hx (heq ▸ hsnd)⟩,
      fun heq => hy (heq ▸ hfst), fun heq => hy (heq ▸ hsnd)⟩
  · omega

theorem factors (h : t.Commits position c s p' trial) (hp : t.protocol.Ordered)
    (hknown : Trial.CoordinatesSatisfy t.protocol.Knows t.protocol) :
    ∀ a ∈ trial.factors, a.isConstant = false := by
  obtain ⟨hlength, hplaces⟩ := h.places hp
  by_cases hne : c.alternative = []
  · have hmeet := h.meet
    rw [hne] at hmeet
    cases hmeet
    exact List.forall_mem_nil _
  · exact (h.isFresh hknown hne).factors_meet rfl hlength hplaces h.meet

theorem isSatisfied (h : t.Commits position c s p' trial) (hp : t.protocol.Ordered)
    (hknown : Trial.CoordinatesSatisfy t.protocol.Knows t.protocol)
    (hfaithful : Trial.FaithfulAt σ place t.protocol)
    (hx : σ c.x = (place s.label).1) (hy : σ c.y = (place s.label).2)
    (hholds : ∀ d ∈ c.alternative, d.HoldsAt place)
    (hne : ∀ a ∈ trial.factors, a.valueAt σ ≠ 0) : trial.IsSatisfied σ (place s.label) := by
  have hinitial : (initial c s).IsSatisfied σ (place s.label) :=
    ⟨⟨c.x, c.y, rfl, rfl, hx, hy⟩, List.forall_mem_nil _⟩
  obtain ⟨hlength, hplaces⟩ := h.places hp
  by_cases hnil : c.alternative = []
  · have hmeet := h.meet
    rw [hnil] at hmeet
    cases hmeet
    exact hinitial
  · have hfaithful' : Trial.FaithfulAt σ place p' := by
      intro u hu
      rw [h.steps] at hu
      exact hfaithful u hu
    exact (h.isFresh hknown hnil).isSatisfied_meet rfl hlength hplaces h.meet hfaithful' hinitial
      hholds hne

/-- Earlier commitments do not have the first coordinate of this one. -/
theorem ne_of_knows {d : Commitment} (h : t.Commits position c s p' trial)
    (hd : t.protocol.Knows d.x ∧ t.protocol.Knows d.y) : d.x ≠ c.x ∧ d.y ≠ c.x := by
  obtain ⟨-, -, ⟨hx, -⟩, -⟩ := Protocol.freshCoordinates_eq h.coordinates
  exact ⟨fun heq => hx (heq ▸ hd.1), fun heq => hx (heq ▸ hd.2)⟩

theorem knows_y (h : t.Commits position c s p' trial)
    (hknown : Trial.CoordinatesSatisfy t.protocol.Knows t.protocol) : p'.Knows c.y := by
  obtain ⟨-, hmono, -, hy⟩ := Protocol.freshCoordinates_eq h.coordinates
  rcases hy with ⟨-, hy, -⟩ | ⟨hy, -⟩
  · exact hy
  · obtain ⟨-, first, rest, -, hfirst, hfirsty⟩ := Protocol.alignedY_eq_some hy h.step
    exact hmono _ ((hknown first hfirst).2 _ hfirsty)

/-- The second coordinate stands for that of the point, also if it was given to another point first. -/
theorem value_y {done rest : List Commitment} (h : t.Commits position c s p' trial)
    (ht : t.IsConsistent p) (hfaithful : Trial.FaithfulAt σ place t.protocol)
    (halign : t.align = true → p.IsAligned place)
    (hσ : σ = coordinateValue (done ++ c :: rest) place)
    (hdone : ∀ d ∈ done, t.protocol.Knows d.x ∧ t.protocol.Knows d.y) :
    σ c.y = (place s.label).2 := by
  obtain ⟨-, -, -, hy⟩ := Protocol.freshCoordinates_eq h.coordinates
  rcases hy with ⟨hy, -, hne⟩ | ⟨hy, -⟩
  · rw [hσ, ← h.label]
    refine coordinateValue_y (fun d hd => ?_) hne
    exact ⟨fun heq => hy (heq ▸ (hdone d hd).1), fun heq => hy (heq ▸ (hdone d hd).2)⟩
  · obtain ⟨halign', first, rest, hfree, hfirst, hfirsty⟩ :=
      Protocol.alignedY_eq_some hy h.step
    rw [(hfaithful first hfirst).2 _ hfirsty]
    exact ((halign halign').of_core ht.core first s rest hfree).symm

end Commits

section Run

variable {p p' : Protocol} {t t' : Transformation} {position : ℕ} {c : Commitment} {s : Step}
  {trial : Trial} {σ : Variable → ℚ} {place : Label → ℚ × ℚ} {is : List ℕ}

theorem IsConsistent.ordered (ht : t.IsConsistent p) (hp : p.Ordered) : t.protocol.Ordered :=
  hp.of_core ht.core

/-- The pass over a protocol that grew by appending starts consistent. -/
theorem isConsistent_start (hp : Appended p) (best align : Bool) :
    IsConsistent p { protocol := p, best, align } where
  core := rfl
  statement := rfl
  known := by
    intro s hs
    rw [hp.unplaced s hs]
    exact ⟨nofun, nofun⟩
  factors := List.forall_mem_nil _

/-- A commitment leaves a consistent pass. -/
theorem IsConsistent.commit (ht : t.IsConsistent p) (hp : p.Ordered)
    (h : t.Commits position c s p' trial) :
    (t.commit position trial.settle p').IsConsistent p := by
  obtain ⟨hsteps, hmono, ⟨-, hx⟩, -⟩ := Protocol.freshCoordinates_eq h.coordinates
  have hknown' : Trial.CoordinatesSatisfy p'.Knows p' := by
    intro u hu
    rw [hsteps] at hu
    obtain ⟨hux, huy⟩ := ht.known u hu
    exact ⟨fun v hv => hmono v (hux v hv), fun v hv => hmono v (huy v hv)⟩
  have hcoordinates := Trial.satisfy_meet (P := p'.Knows) hknown' (t := Commits.initial c s)
    (fun v hv => by
      rcases hv with hv | hv
      · cases hv
        exact hx
      · cases hv
        exact h.knows_y ht.known)
    (fun d hd => ((h.places (ht.ordered hp)).2 d hd).isPure) h.meet
  refine ⟨?_, (Protocol.statement_freshCoordinates h.coordinates).trans ht.statement, ?_, ?_⟩
  · have hmodify := Protocol.map_modify_of_eq (p := p') (g := fun _ => trial.settle.point) Step.core
      position fun u hu => by
        rw [hsteps, h.step] at hu
        cases hu
        rw [Trial.core_settle, h.core_trial]
    exact hmodify.trans (hsteps ▸ ht.core)
  · refine forall_mem_modify hknown' ⟨fun v hv => ?_, fun v hv => ?_⟩
    · rw [Trial.x_settle] at hv
      exact hcoordinates v (.inl hv)
    · rw [Trial.y_settle] at hv
      exact hcoordinates v (.inr hv)
  · refine List.forall_mem_append.2 ⟨ht.factors, fun k hk => ?_⟩
    obtain ⟨a, ha, rfl⟩ := List.mem_map.1 hk
    rw [Trial.factors_settle] at ha
    exact h.factors (ht.ordered hp) ht.known a ha

/-- All points stand where they are placed, and the system vanishes. -/
structure HoldsAt (σ : Variable → ℚ) (place : Label → ℚ × ℚ) (t : Transformation) : Prop where
  faithful : Trial.FaithfulAt σ place t.protocol
  system : VanishAt σ t.system

/-- A commitment whose conditions hold keeps the system at zero, unless one of its factors is. -/
theorem HoldsAt.commit (ht : t.HoldsAt σ place) (hconsistent : t.IsConsistent p) (hp : p.Ordered)
    (h : t.Commits position c s p' trial)
    (hx : σ c.x = (place s.label).1) (hy : σ c.y = (place s.label).2)
    (hholds : ∀ d ∈ c.alternative, d.HoldsAt place)
    (hne : ∀ k ∈ (t.commit position trial.settle p').factors, k.polynomial.valueAt σ ≠ 0) :
    (t.commit position trial.settle p').HoldsAt σ place := by
  have hfactors : ∀ a ∈ trial.factors, a.valueAt σ ≠ 0 := by
    intro a ha
    refine hne ⟨a, trial.settle.point.label⟩ (List.mem_append_right _ (List.mem_map.2 ⟨a, ?_, rfl⟩))
    rwa [Trial.factors_settle]
  have hsat := h.isSatisfied (hconsistent.ordered hp) hconsistent.known ht.faithful hx hy hholds
    hfactors
  obtain ⟨x, y, hpx, hpy, hσx, hσy⟩ := hsat.coordinates
  have hlabel : trial.settle.point.label = s.label :=
    (congr_arg Prod.fst (Trial.core_settle trial)).trans h.label_trial
  refine ⟨forall_mem_modify (fun u hu => ?_) ⟨fun v hv => ?_, fun v hv => ?_⟩, ?_⟩
  · rw [h.steps] at hu
    exact ht.faithful u hu
  · rw [Trial.x_settle, hpx] at hv
    cases hv
    rw [hlabel, hσx]
  · rw [Trial.y_settle, hpy] at hv
    cases hv
    rw [hlabel, hσy]
  · refine List.forall_mem_append.2 ⟨ht.system, fun k hk => ?_⟩
    obtain ⟨q, hq, rfl⟩ := List.mem_map.1 hk
    rw [Trial.hypotheses_settle] at hq
    exact hsat.hypotheses q hq

theorem advanceAll_cons (h : t.advanceAll (position :: is) = (none, t')) :
    ∃ qs, t.advance position = (.ok qs, (t.advance position).2) ∧
      (t.advance position).2.advanceAll is = (none, t') := by
  unfold advanceAll at h
  split at h
  next => cases h
  next qs t'' ht => exact ⟨qs, by rw [ht], by rw [ht]; exact h⟩

/-- A pass stays consistent. -/
theorem IsConsistent.advanceAll (ht : t.IsConsistent p) (hp : p.Ordered)
    (h : t.advanceAll is = (none, t')) : t'.IsConsistent p := by
  induction is generalizing t with
  | nil =>
      cases h
      exact ht
  | cons i is ih =>
      obtain ⟨qs, hadvance, h⟩ := advanceAll_cons h
      refine ih ?_ h
      rcases advance_eq_ok hadvance with ⟨-, heq⟩ | ⟨c, s, p', trial, -, hcommits, heq⟩
      · rw [heq]
        exact ht
      · rw [heq]
        exact ht.commit hp hcommits

theorem factors_advanceAll (h : t.advanceAll is = (none, t')) : ∀ k ∈ t.factors, k ∈ t'.factors := by
  induction is generalizing t with
  | nil =>
      cases h
      exact fun k hk => hk
  | cons i is ih =>
      obtain ⟨qs, hadvance, h⟩ := advanceAll_cons h
      intro k hk
      refine ih h k ?_
      rcases advance_eq_ok hadvance with ⟨-, heq⟩ | ⟨c, s, p', trial, -, -, heq⟩
      · rw [heq]
        exact hk
      · rw [heq]
        exact List.mem_append_left _ hk

/-- A pass at a placement that meets all committed conditions ends with a system that vanishes there,
unless a factor does. -/
theorem HoldsAt.advanceAll {done : List Commitment} (ht : t.HoldsAt σ place)
    (hconsistent : t.IsConsistent p) (hp : p.Ordered) (halign : t.align = true → p.IsAligned place)
    (hσ : σ = coordinateValue (done ++ t.commitments is) place)
    (hdone : ∀ d ∈ done, t.protocol.Knows d.x ∧ t.protocol.Knows d.y)
    (hholds : ∀ c ∈ t.commitments is, ∀ d ∈ c.alternative, d.HoldsAt place)
    (h : t.advanceAll is = (none, t'))
    (hne : ∀ k ∈ t'.factors, k.polynomial.valueAt σ ≠ 0) : t'.HoldsAt σ place := by
  induction is generalizing t done with
  | nil =>
      cases h
      exact ht
  | cons i is ih =>
      obtain ⟨qs, hadvance, h⟩ := advanceAll_cons h
      unfold commitments at hσ hholds
      rcases advance_eq_ok hadvance with ⟨hnone, heq⟩ | ⟨c, s, p', trial, hsome, hcommits, heq⟩
      · rw [hnone, Option.toList_none, List.nil_append] at hσ hholds
        rw [heq] at h hσ hholds
        exact ih ht hconsistent halign hσ hdone hholds h
      · rw [hsome, Option.toList_some, List.singleton_append] at hσ hholds
        obtain ⟨hc, hrest⟩ := List.forall_mem_cons.1 hholds
        have hx : σ c.x = (place s.label).1 := by
          rw [hσ, ← hcommits.label]
          exact coordinateValue_x fun d hd => hcommits.ne_of_knows (hdone d hd)
        have hy : σ c.y = (place s.label).2 :=
          hcommits.value_y hconsistent ht.faithful halign hσ hdone
        rw [heq] at h hσ hrest
        have hσ' : σ = coordinateValue ((done ++ [c]) ++
            commitments (t.commit i trial.settle p') is) place := by
          rw [hσ, List.append_assoc, List.singleton_append]
        refine ih ?_ (hconsistent.commit hp hcommits) halign hσ' (fun d hd => ?_) hrest h
        · exact ht.commit hconsistent hp hcommits hx hy hc fun k hk =>
            hne k (factors_advanceAll h k hk)
        · obtain ⟨-, hmono, ⟨-, hknows⟩, -⟩ := Protocol.freshCoordinates_eq hcommits.coordinates
          rcases List.mem_append.1 hd with hd | hd
          · exact ⟨hmono _ (hdone d hd).1, hmono _ (hdone d hd).2⟩
          · rw [List.mem_singleton.1 hd]
            exact ⟨hknows, hcommits.knows_y hconsistent.known⟩

end Run

end Transformation
end Planimetry
