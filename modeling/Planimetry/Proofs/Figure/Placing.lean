import Mathlib.Algebra.Module.Rat
import Mathlib.Tactic.LinearCombination
import Planimetry.Proofs.Figure.Binding

/-! The conditions by which points are placed, as equations between places. -/

namespace Planimetry

section Vectors

def cross (u v : ℚ × ℚ) : ℚ := u.1 * v.2 - u.2 * v.1

def dot (u v : ℚ × ℚ) : ℚ := u.1 * v.1 + u.2 * v.2

/-- A vector turned counter-clockwise by a right angle. -/
def turned (v : ℚ × ℚ) : ℚ × ℚ := (-v.2, v.1)

variable {u v w : ℚ × ℚ}

theorem fst_ne_zero_or_snd_ne_zero (h : v ≠ 0) : v.1 ≠ 0 ∨ v.2 ≠ 0 := by
  by_contra hzero
  push Not at hzero
  exact h (Prod.ext hzero.1 hzero.2)

/-- Vectors that have a direction in common are parallel. -/
theorem cross_eq_zero_trans (hv : v ≠ 0) (huv : cross u v = 0) (hvw : cross v w = 0) :
    cross u w = 0 := by
  unfold cross at huv hvw ⊢
  rcases fst_ne_zero_or_snd_ne_zero hv with hv | hv
  · refine (mul_eq_zero.1 ?_).resolve_left hv
    linear_combination u.1 * hvw + w.1 * huv
  · refine (mul_eq_zero.1 ?_).resolve_left hv
    linear_combination u.2 * hvw + w.2 * huv

theorem dot_eq_zero_of_cross (hv : v ≠ 0) (huv : dot u v = 0) (hvw : cross v w = 0) :
    dot u w = 0 := by
  unfold dot cross at *
  rcases fst_ne_zero_or_snd_ne_zero hv with hv | hv
  · refine (mul_eq_zero.1 ?_).resolve_left hv
    linear_combination u.2 * hvw + w.1 * huv
  · refine (mul_eq_zero.1 ?_).resolve_left hv
    linear_combination -u.1 * hvw + w.2 * huv

@[simp] theorem cross_zero (u : ℚ × ℚ) : cross u 0 = 0 := by
  simp [cross]

@[simp] theorem dot_zero (u : ℚ × ℚ) : dot u 0 = 0 := by
  simp [dot]

theorem cross_turned : cross u (turned v) = dot u v := by
  unfold cross turned dot
  ring

end Vectors

namespace Condition

open Template

variable {place : Label → ℚ × ℚ} {t : Template} {names : List Label}
  {roles : List (Label × Label)} {x : Label}

theorem holdsAt_placing_iff (ht : t ∈ placing) (hcovered : t.IsCovered names)
    (hnames : roles.map Prod.fst = names) :
    HoldsAt place ⟨t, (own, x) :: roles⟩ ↔ t.valueAt (located fun r =>
      ((((own, x) :: roles).lookup r).map place).getD 0) = 0 :=
  holdsAt_iff (isPure_of_mem_placing t ht) fun r hr => by
    simpa [hnames] using hcovered.2 r hr

theorem holdsAt_collinear (x a b : Label) :
    HoldsAt place ⟨collinear own "A" "B", [(own, x), ("A", a), ("B", b)]⟩ ↔
      cross (place a - place x) (place b - place x) = 0 := by
  rw [holdsAt_placing_iff (by simp [placing]) (isCovered_of_mem_keeping ["A", "B"] (by simp [keeping])) rfl,
    valueAt_collinear]
  simp [roleValue, located, own, cross, List.lookup]

theorem holdsAt_parallel (x q a b : Label) :
    HoldsAt place ⟨parallel "P" own "A" "B", [(own, x), ("P", q), ("A", a), ("B", b)]⟩ ↔
      cross (place x - place q) (place b - place a) = 0 := by
  rw [holdsAt_placing_iff (by simp [placing]) (isCovered_of_mem_keeping ["P", "A", "B"] (by simp [keeping])) rfl,
    valueAt_parallel]
  simp [roleValue, located, own, cross, List.lookup]

theorem holdsAt_perpendicular (x q a b : Label) :
    HoldsAt place ⟨perpendicular "P" own "A" "B", [(own, x), ("P", q), ("A", a), ("B", b)]⟩ ↔
      dot (place x - place q) (place b - place a) = 0 := by
  rw [holdsAt_placing_iff (by simp [placing]) (isCovered_of_mem_keeping ["P", "A", "B"] (by simp [keeping])) rfl,
    valueAt_perpendicular]
  simp [roleValue, located, own, dot, List.lookup]

/-- Two conditions place a point together where a vector is zero. -/
theorem forall_both_iff (names : List Label) {ts : Template × Template} {e : ℚ × ℚ}
    (hts : (ts, names) ∈ pairing) (hnames : roles.map Prod.fst = names)
    (hfst : ts.1.valueAt (located fun r => ((((own, x) :: roles).lookup r).map place).getD 0) = e.1)
    (hsnd : ts.2.valueAt (located fun r => ((((own, x) :: roles).lookup r).map place).getD 0) = e.2) :
    (∀ way ∈ both x roles ts, ∀ c ∈ way, c.HoldsAt place) ↔ e = 0 := by
  have hboth : (∀ way ∈ both x roles ts, ∀ c ∈ way, c.HoldsAt place) ↔
      HoldsAt place ⟨ts.1, (own, x) :: roles⟩ ∧ HoldsAt place ⟨ts.2, (own, x) :: roles⟩ := by
    simp [both]
  have hplacing : ts.1 ∈ placing ∧ ts.2 ∈ placing := by
    have hall : ∀ e ∈ pairing, e.1.1 ∈ placing ∧ e.1.2 ∈ placing := by simp [pairing, placing]
    exact hall _ hts
  obtain ⟨hcoveredFst, hcoveredSnd⟩ := isCovered_of_mem_pairing hts
  rw [hboth, holdsAt_placing_iff hplacing.1 hcoveredFst hnames,
    holdsAt_placing_iff hplacing.2 hcoveredSnd hnames, hfst, hsnd, Prod.ext_iff]
  rfl

theorem holdsAt_midpoint (x a b : Label) :
    (∀ way ∈ both x [("A", a), ("B", b)] Template.midpoint, ∀ c ∈ way, c.HoldsAt place) ↔
      (2 : ℚ) • place x - place a - place b = 0 :=
  forall_both_iff ["A", "B"] (by simp [pairing]) rfl
    (by simp [Template.midpoint, position, coordinate, located, own, List.lookup])
    (by simp [Template.midpoint, position, coordinate, located, own, List.lookup])

theorem holdsAt_shift (x q a b : Label) :
    (∀ way ∈ both x [("P", q), ("A", a), ("B", b)] shift, ∀ c ∈ way, c.HoldsAt place) ↔
      place x - place q - (place b - place a) = 0 :=
  forall_both_iff ["P", "A", "B"] (by simp [pairing]) rfl
    (by simp [shift, position, between, coordinate, located, own, List.lookup])
    (by simp [shift, position, between, coordinate, located, own, List.lookup])

theorem holdsAt_centralSymmetry (x q o : Label) :
    (∀ way ∈ both x [("P", q), ("O", o)] centralSymmetry, ∀ c ∈ way, c.HoldsAt place) ↔
      place x + place q - (2 : ℚ) • place o = 0 :=
  forall_both_iff ["P", "O"] (by simp [pairing]) rfl
    (by simp [centralSymmetry, position, coordinate, located, own, List.lookup])
    (by simp [centralSymmetry, position, coordinate, located, own, List.lookup])

theorem holdsAt_quarterTurn (x q o : Label) :
    (∀ way ∈ both x [("P", q), ("O", o)] quarterTurn, ∀ c ∈ way, c.HoldsAt place) ↔
      place x - place o - turned (place q - place o) = 0 :=
  forall_both_iff ["P", "O"] (by simp [pairing]) rfl
    (by simp [quarterTurn, position, between, coordinate, turned, located, own, List.lookup]; ring)
    (by simp [quarterTurn, position, between, coordinate, turned, located, own, List.lookup])

theorem holdsAt_foot (x q a b : Label) :
    (∀ way ∈ both x [("P", q), ("A", a), ("B", b)] foot, ∀ c ∈ way, c.HoldsAt place) ↔
      (cross (place a - place x) (place b - place x), dot (place x - place q) (place b - place a)) =
        (0 : ℚ × ℚ) :=
  forall_both_iff ["P", "A", "B"] (by simp [pairing]) rfl
    ((valueAt_collinear _ _ _ _).trans (by simp [roleValue, located, own, cross, List.lookup]))
    ((valueAt_perpendicular _ _ _ _ _).trans (by simp [roleValue, located, own, dot, List.lookup]))

theorem holdsAt_reflection (x q a b : Label) :
    (∀ way ∈ both x [("P", q), ("A", a), ("B", b)] reflection, ∀ c ∈ way, c.HoldsAt place) ↔
      (cross (place b - place a) ((1 / 2 : ℚ) • (place x + place q) - place a),
        dot (place x - place q) (place b - place a)) = (0 : ℚ × ℚ) :=
  forall_both_iff ["P", "A", "B"] (by simp [pairing]) rfl
    (by simp [reflection, position, between, coordinate, Vector.cross, cross, located, own, List.lookup]; ring)
    (by simp [reflection, position, between, coordinate, Vector.dot, dot, located, own, List.lookup])

theorem holdsAt_circleCenter (x a b c : Label) :
    (∀ way ∈ both x [("A", a), ("B", b), ("C", c)] circleCenter, ∀ e ∈ way, e.HoldsAt place) ↔
      (dot (place a - place x) (place a - place x) - dot (place b - place x) (place b - place x),
        dot (place a - place x) (place a - place x) - dot (place c - place x) (place c - place x)) =
          (0 : ℚ × ℚ) :=
  forall_both_iff ["A", "B", "C"] (by simp [pairing]) rfl
    (by simp [circleCenter, equidistant, valueAt_squareDistance, roleValue, dot, located, own, List.lookup])
    (by simp [circleCenter, equidistant, valueAt_squareDistance, roleValue, dot, located, own, List.lookup])

end Condition

end Planimetry
