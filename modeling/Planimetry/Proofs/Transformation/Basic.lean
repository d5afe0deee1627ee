import Planimetry.Proofs.Transformation.Trial
import Planimetry.Transformation.Basic

/-! The pass over all steps: which alternative it commits for each point, and what each commitment
leaves true. -/

namespace Planimetry

namespace Protocol

/-- A variable that the protocol has given out already. -/
def Knows (p : Protocol) : Variable → Prop
  | .free i => i < p.freeIndex
  | .dependent i => i < p.dependentIndex
  | .placeholder .. => False

variable {p p' : Protocol} {align : Bool} {position n : ℕ} {x y : Variable}

theorem Knows.mono {v : Variable} (hv : p.Knows v) (hfree : p.freeIndex ≤ p'.freeIndex)
    (hdependent : p.dependentIndex ≤ p'.dependentIndex) : p'.Knows v := by
  cases v with
  | free i => exact lt_of_lt_of_le hv hfree
  | dependent i => exact lt_of_lt_of_le hv hdependent
  | placeholder r a => exact hv

/-- The first coordinate is fresh, and so is the second one unless it is aligned. -/
theorem freshCoordinates_eq (h : p.freshCoordinates align position n = ((x, y), p')) :
    p'.steps = p.steps ∧ (∀ v, p.Knows v → p'.Knows v) ∧ (¬p.Knows x ∧ p'.Knows x) ∧
      (¬p.Knows y ∧ p'.Knows y ∧ x ≠ y ∨ p.alignedY align position = some y ∧ 2 ≤ n) := by
  match n, h with
  | 0, h =>
      cases h
      refine ⟨rfl, fun v hv => hv.mono ?_ ?_, ⟨?_, ?_⟩, .inl ⟨?_, ?_, ?_⟩⟩ <;> simp [Knows]
      omega
  | 1, h =>
      cases h
      refine ⟨rfl, fun v hv => hv.mono ?_ ?_, ⟨?_, ?_⟩, .inl ⟨?_, ?_, ?_⟩⟩ <;> simp [Knows]
  | n + 2, h =>
      simp only [freshCoordinates] at h
      split at h
      next y' hy' =>
        cases h
        refine ⟨rfl, fun v hv => hv.mono ?_ ?_, ⟨?_, ?_⟩, .inr ⟨hy', by omega⟩⟩ <;>
          simp [Knows, nextFree]
      next =>
        cases h
        refine ⟨rfl, fun v hv => hv.mono ?_ ?_, ⟨?_, ?_⟩, .inl ⟨?_, ?_, ?_⟩⟩ <;>
          simp [Knows, nextFree]
        omega

theorem statement_freshCoordinates (h : p.freshCoordinates align position n = ((x, y), p')) :
    p'.statement = p.statement := by
  match n, h with
  | 0, h =>
      cases h
      rfl
  | 1, h =>
      cases h
      rfl
  | n + 2, h =>
      simp only [freshCoordinates] at h
      split at h <;> cases h <;> rfl

end Protocol

/-- The alternative by which a point is placed, and the coordinates that the point gets at first. -/
structure Commitment where
  label : Label
  alternative : Alternative
  x : Variable
  y : Variable
  deriving DecidableEq

namespace Transformation

/-- The alternative by which the pass places the step at a position, if that is a point without
coordinates. -/
def alternative? (t : Transformation) (position : Nat) (s : Step) : Option Alternative :=
  match t.choice position s with
  | .error _ => none
  | .ok (some a) => some a
  | .ok none => (defaultAlternative t.protocol s).toOption

/-- What the pass commits for the step at a position. -/
def commitment? (t : Transformation) (position : Nat) : Option Commitment :=
  match t.protocol.steps[position]? with
  | none => none
  | some s =>
    if s.isPlaced || !s.isPoint then none
    else (t.alternative? position s).map fun a =>
      let xy := (t.protocol.freshCoordinates t.align position s.kind.spec.freeCoordinates).1
      ⟨s.label, a, xy.1, xy.2⟩

/-- All that the pass commits for the steps at the given positions, in order. -/
def commitments (t : Transformation) : List Nat → List Commitment
  | [] => []
  | i :: is => (t.commitment? i).toList ++ commitments (t.advance i).2 is

/-- How the pass commits an alternative for a step. -/
structure Commits (t : Transformation) (position : Nat) (c : Commitment) (s : Step) (p : Protocol)
    (trial : Trial) : Prop where
  step : t.protocol.steps[position]? = some s
  label : c.label = s.label
  isPoint : s.isPoint = true
  alternative : c.alternative = [] ∨ ∃ rule ways, s.construction = .point rule ∧
    t.protocol.alternatives s = .ok ways ∧ c.alternative ∈ ways
  coordinates : t.protocol.freshCoordinates t.align position s.kind.spec.freeCoordinates =
    ((c.x, c.y), p)
  meet : Trial.meet p { point := { s with placement := ⟨some c.x, some c.y, .unchanged⟩ } }
    c.alternative = (trial, none)

variable {t t' : Transformation} {position : ℕ} {qs : List Polynomial} {s : Step} {a : Alternative}

theorem isPoint_iff : s.isPoint = true ↔ ∃ rule, s.construction = .point rule := by
  unfold Step.isPoint Step.category
  cases h : s.construction with
  | point rule => cases rule <;> simp [Construction.category, Construction.kind, Kind.category, Kind.spec]
  | set locus => cases locus <;> simp [Construction.category, Construction.kind, Kind.category, Kind.spec]
  | statement relation =>
      cases relation <;>
        simp [Construction.category, Construction.kind, Kind.category, Kind.spec]

/-- A statement has no coordinates. -/
theorem coordinates?_of_statement {relation : Relation} (h : s.construction = .statement relation) :
    s.coordinates? = none := by
  unfold Step.coordinates? Step.isPoint Step.category
  rw [h]
  cases relation <;> rfl

theorem placeBy_eq_ok (h : t.placeBy position s a = (.ok qs, t')) :
    ∃ xy p trial,
      t.protocol.freshCoordinates t.align position s.kind.spec.freeCoordinates = (xy, p) ∧
      Trial.meet p { point := { s with placement := ⟨some xy.1, some xy.2, .unchanged⟩ } } a =
        (trial, none) ∧ t' = t.commit position trial.settle p := by
  unfold placeBy at h
  split at h
  next => cases h
  next =>
    generalize hrun : Trial.run t.protocol t.align position s a = result at h
    obtain ⟨trial, p, error?⟩ := result
    unfold Trial.run at hrun
    generalize hfresh : t.protocol.freshCoordinates t.align position s.kind.spec.freeCoordinates =
      fresh at hrun
    obtain ⟨xy, p'⟩ := fresh
    dsimp only at hrun h
    split at hrun
    next trial' hmeet =>
      cases hrun
      cases h
      exact ⟨xy, _, trial', rfl, hmeet, rfl⟩
    next =>
      cases hrun
      cases h

theorem defaultAlternative_eq_ok {p : Protocol} (h : defaultAlternative p s = .ok a) :
    a = [] ∨ ∃ ways, p.alternatives s = .ok ways ∧ a ∈ ways := by
  unfold defaultAlternative at h
  obtain ⟨ways, hways, h⟩ := bind_eq_ok h
  split at h
  next =>
    split at h
    · cases h
    · exact .inl (Except.ok.inj h).symm
  next first rest =>
    cases h
    exact .inr ⟨_, mapError_eq_ok hways, List.mem_cons_self⟩

theorem choice_eq_ok (h : t.choice position s = .ok (some a)) :
    ∃ ways, t.protocol.alternatives s = .ok ways ∧ a ∈ ways := by
  unfold choice at h
  split at h
  next =>
    obtain ⟨ways, hways, h⟩ := bind_eq_ok h
    split at h
    next => cases h
    next => exact ⟨ways, mapError_eq_ok hways, List.mem_of_getElem? (Except.ok.inj h)⟩
  next => cases h

theorem alternative?_eq_some (h : t.alternative? position s = some a) :
    a = [] ∨ ∃ ways, t.protocol.alternatives s = .ok ways ∧ a ∈ ways := by
  unfold alternative? at h
  split at h
  next => cases h
  next a' ha =>
    cases h
    exact .inr (choice_eq_ok ha)
  next =>
    cases hdefault : defaultAlternative t.protocol s with
    | error e =>
        rw [hdefault] at h
        cases h
    | ok a' =>
        rw [hdefault] at h
        cases h
        exact defaultAlternative_eq_ok hdefault

/-- What transforming a point without a given alternative comes to. -/
theorem transform_eq_ok {alternative : Option Alternative} {rule : PointRule}
    (hs : t.protocol.steps[position]? = some s) (hrule : s.construction = .point rule)
    (h : t.transform position alternative = (.ok qs, t')) :
    ∃ a, (alternative = some a ∨ alternative = none ∧ defaultAlternative t.protocol s = .ok a) ∧
      t.placeBy position s a = (.ok qs, t') := by
  unfold transform at h
  simp only [hs, hrule] at h
  cases alternative with
  | some a => exact ⟨a, .inl rfl, h⟩
  | none =>
      cases hdefault : defaultAlternative t.protocol s with
      | error e => simp [hdefault] at h
      | ok a => exact ⟨a, .inr ⟨rfl, rfl⟩, by simpa only [hdefault] using h⟩

/-- The pass goes on only if it leaves a step alone or commits an alternative for it. -/
theorem advance_eq_ok (h : t.advance position = (.ok qs, t')) :
    (t.commitment? position = none ∧ t' = t) ∨
      ∃ c s p trial, t.commitment? position = some c ∧ t.Commits position c s p trial ∧
        t' = t.commit position trial.settle p := by
  unfold advance at h
  unfold commitment?
  cases hs : t.protocol.steps[position]? with
  | none =>
      simp only [hs] at h
      cases h
      exact .inl ⟨rfl, rfl⟩
  | some s =>
      simp only [hs] at h ⊢
      cases hplaced : s.isPlaced with
      | true =>
          rw [hplaced] at h
          cases h
          exact .inl ⟨rfl, rfl⟩
      | false =>
          simp only [hplaced, Bool.false_eq_true, if_false, Bool.false_or] at h ⊢
          cases hchoice : t.choice position s with
          | error e => simp [hchoice] at h
          | ok alternative =>
              simp only [hchoice] at h
              cases hpoint : s.isPoint with
              | true =>
                  obtain ⟨rule, hrule⟩ := isPoint_iff.1 hpoint
                  obtain ⟨a, ha, hplace⟩ := transform_eq_ok hs hrule h
                  have hchosen : t.alternative? position s = some a := by
                    unfold alternative?
                    rcases ha with rfl | ⟨rfl, hdefault⟩
                    · simp only [hchoice]
                    · simp only [hchoice, hdefault, Except.toOption]
                  obtain ⟨xy, p, trial, hfresh, hmeet, rfl⟩ := placeBy_eq_ok hplace
                  refine .inr ⟨⟨s.label, a, xy.1, xy.2⟩, s, p, trial, ?_, ?_, rfl⟩
                  · simp [hchosen, hfresh]
                  · refine ⟨hs, rfl, hpoint, ?_, hfresh, hmeet⟩
                    refine (alternative?_eq_some hchosen).imp_right ?_
                    rintro ⟨ways, hways, hmem⟩
                    exact ⟨rule, ways, hrule, hways, hmem⟩
              | false =>
                  refine .inl ⟨by simp, ?_⟩
                  unfold transform at h
                  simp only [hs] at h
                  split at h
                  next => cases h
                  next => exact (Prod.mk.inj h).2.symm
                  next rule hrule =>
                    rw [isPoint_iff.2 ⟨rule, hrule⟩] at hpoint
                    cases hpoint

end Transformation
end Planimetry
