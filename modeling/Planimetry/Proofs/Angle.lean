import Mathlib.Algebra.Algebra.Rat
import Mathlib.Algebra.Order.Field.Basic
import Mathlib.Algebra.QuadraticAlgebra.Basic
import Mathlib.Tactic.Ring
import Planimetry.Proofs.Template

/-! Angles as complex numbers: tangents multiply where angles are added, and the point on a ray is a turned and
stretched image of the point on its arm. -/

namespace Planimetry

/-! ### Complex numbers over a ring -/

/-- Numbers with a real and an imaginary part in a ring. -/
abbrev ComplexOver (R : Type*) [CommRing R] := QuadraticAlgebra R (-1) 0

section Numbers

variable {K : Type*} [Field K] [LinearOrder K] [IsStrictOrderedRing K] {z w u p : ComplexOver K}

/-- No square is negative. -/
instance fact_sq_ne_neg_one : Fact (∀ r : K, r ^ 2 ≠ -1 + 0 * r) := by
  refine ⟨fun r h => ?_⟩
  rw [zero_mul, add_zero] at h
  have hsq := sq_nonneg r
  rw [h] at hsq
  exact absurd hsq (by norm_num)

/-- Dividing by a number turns a line through zero. -/
theorem exists_mul_eq_smul_iff (hw : w ≠ 0) : (∃ s : K, w * p = s • u) ↔ ∃ t : K, p = t • (star w * u) := by
  have hnorm : w.norm ≠ 0 := mt QuadraticAlgebra.norm_eq_zero_iff_eq_zero.1 hw
  have hstar (z : ComplexOver K) : w * (star w * z) = w.norm • z := by
    rw [← mul_assoc, ← QuadraticAlgebra.algebraMap_norm_eq_mul_star, ← Algebra.smul_def]
  constructor
  · rintro ⟨s, hs⟩
    have hscaled : w.norm • p = s • (star w * u) := by
      rw [← hstar, mul_left_comm, hs, mul_smul_comm]
    refine ⟨w.norm⁻¹ * s, ?_⟩
    rw [mul_smul, ← hscaled, inv_smul_smul₀ hnorm]
  · rintro ⟨t, rfl⟩
    refine ⟨t * w.norm, ?_⟩
    rw [mul_smul_comm, hstar, mul_smul]

/-- The real multiples of a number are those in its direction. -/
theorem exists_eq_smul_iff (hu : u ≠ 0) : (∃ s : K, z = s • u) ↔ z.im * u.re - z.re * u.im = 0 := by
  have hreal : (∃ r : K, star u * z = r • 1) ↔ z.im * u.re - z.re * u.im = 0 := by
    have him : (star u * z).im = z.im * u.re - z.re * u.im := by
      simp
      ring
    rw [← him]
    constructor
    · rintro ⟨r, hr⟩
      rw [hr, QuadraticAlgebra.im_smul, QuadraticAlgebra.im_one, smul_zero]
    · intro h
      refine ⟨(star u * z).re, QuadraticAlgebra.ext ?_ ?_⟩
      · rw [QuadraticAlgebra.re_smul, QuadraticAlgebra.re_one, smul_eq_mul, mul_one]
      · rw [h, QuadraticAlgebra.im_smul, QuadraticAlgebra.im_one, smul_zero]
  -- turned back by `u`, its multiples are the real numbers
  rw [← hreal, exists_mul_eq_smul_iff (star_ne_zero.2 hu), star_star, mul_one]

end Numbers

/-! ### Tangents -/

section Tangents

variable {R : Type*} [CommRing R]

/-- The coordinates of roles with given places. -/
def coordinatesAt (place : Label → ComplexOver R) : Variable → R
  | .placeholder r .x => (place r).re
  | .placeholder r .y => (place r).im
  | _ => 0

variable [Algebra ℚ R]

/-- A tangent as a number, whose real part is the denominator. -/
noncomputable def Tangent.numberAt (σ : Variable → R) (t : Tangent) : ComplexOver R :=
  ⟨t.denominator.valueAt σ, t.numerator.valueAt σ⟩

open Template

theorem numberAt_angleTangent (place : Label → ComplexOver R) (a o b : Label) :
    (angleTangent a o b).numberAt (coordinatesAt place) = star (place a - place o) * (place b - place o) := by
  refine QuadraticAlgebra.ext ?_ ?_
  · simp [Tangent.numberAt, angleTangent, between, position, Vector.dot, coordinate, coordinatesAt]
    ring
  · simp [Tangent.numberAt, angleTangent, between, position, Vector.cross, coordinate, coordinatesAt]
    ring

theorem numberAt_tangentOfSum (σ : Variable → R) (s t : Tangent) :
    (tangentOfSum s t).numberAt σ = s.numberAt σ * t.numberAt σ := by
  refine QuadraticAlgebra.ext ?_ ?_
  · simp [Tangent.numberAt, tangentOfSum]
    ring
  · simp [Tangent.numberAt, tangentOfSum]
    ring

/-- A tangent is told by its number at the variables themselves. -/
theorem Tangent.eq_of_numberAt {s t : Tangent}
    (h : s.numberAt (R := MvPolynomial Variable ℚ) .X = t.numberAt .X) : s = t := by
  obtain ⟨hdenominator, hnumerator⟩ := QuadraticAlgebra.ext_iff.1 h
  cases s
  cases t
  simp only [numberAt, Polynomial.valueAt_X] at hdenominator hnumerator
  rw [Polynomial.toMv_injective hdenominator, Polynomial.toMv_injective hnumerator]

/-- A sum of angles, bracketed in some way. -/
inductive AngleSum where
  | angle (t : Tangent)
  | add (s t : AngleSum)

namespace AngleSum

def tangent : AngleSum → Tangent
  | .angle t => t
  | .add s t => tangentOfSum s.tangent t.tangent

/-- The angles of a sum, from left to right. -/
def angles : AngleSum → List Tangent
  | .angle t => [t]
  | .add s t => s.angles ++ t.angles

theorem numberAt_tangent (σ : Variable → R) (s : AngleSum) :
    s.tangent.numberAt σ = (s.angles.map (Tangent.numberAt σ)).prod := by
  induction s with
  | angle t => rw [angles, List.map_singleton, List.prod_singleton, tangent]
  | add s t ihs iht => rw [tangent, numberAt_tangentOfSum, ihs, iht, angles, List.map_append, List.prod_append]

/-- Neither brackets nor order matter. -/
theorem tangent_eq_of_perm {s t : AngleSum} (h : s.angles.Perm t.angles) : s.tangent = t.tangent := by
  refine Tangent.eq_of_numberAt ?_
  rw [numberAt_tangent, numberAt_tangent]
  exact (h.map _).prod_eq

end AngleSum

end Tangents

/-! ### Rays -/

section Rays

variable {K : Type*} [Field K] [LinearOrder K] [IsStrictOrderedRing K] (place : Label → ComplexOver K)

/-- The number of the tangent of the angle between three roles. -/
noncomputable def angleAt (a o b : Label) : ComplexOver K :=
  (Template.angleTangent a o b).numberAt (coordinatesAt place)

variable {place}

theorem angleAt_eq (a o b : Label) : angleAt place a o b = star (place a - place o) * (place b - place o) :=
  numberAt_angleTangent place a o b

open Template

theorem angleAt_update {a o b : Label} (ha : a ≠ own) (ho : o ≠ own) (hb : b ≠ own) (p : ComplexOver K) :
    angleAt (Function.update place own p) a o b = angleAt place a o b := by
  rw [angleAt_eq, angleAt_eq, Function.update_of_ne ha, Function.update_of_ne ho, Function.update_of_ne hb]

theorem valueAt_angleRay_eq_zero_iff (hao : place "A" ≠ place "O") (hgiven : angleAt place "A1" "O1" "B1" ≠ 0) :
    angleRay.valueAt (coordinatesAt place) = 0 ↔
      ∃ t : K, place own = place "O" + t • ((place "A" - place "O") * angleAt place "A1" "O1" "B1") := by
  have hvalue : angleRay.valueAt (coordinatesAt place) =
      (angleAt place "A" "O" own).im * (angleAt place "A1" "O1" "B1").re -
        (angleAt place "A" "O" own).re * (angleAt place "A1" "O1" "B1").im := by
    simp [angleAt, angleRay, Tangent.numberAt]
  have hray : star (place "A" - place "O") ≠ 0 := star_ne_zero.2 (sub_ne_zero.2 hao)
  rw [hvalue, ← exists_eq_smul_iff hgiven, angleAt_eq "A" "O" own, exists_mul_eq_smul_iff hray, star_star]
  simp only [sub_eq_iff_eq_add']

/-- The number whose real multiples are the sums of angles that end in `T`. -/
def sixtyAt (place : Label → ComplexOver K) : ComplexOver K := ⟨1, (place "T").re⟩

theorem sixtyAt_ne_zero : sixtyAt place ≠ 0 := fun h => one_ne_zero (congr_arg QuadraticAlgebra.re h)

theorem valueAt_angleRayToSixty_eq_zero_iff : angleRayToSixty.valueAt (coordinatesAt place) = 0 ↔
    ∃ t : K, angleAt place "A1" "O1" "B1" * angleAt place "A2" "O2" "B2" * angleAt place "A" "O" own =
      t • sixtyAt place := by
  have hvalue : angleRayToSixty.valueAt (coordinatesAt place) =
      (angleAt place "A1" "O1" "B1" * angleAt place "A2" "O2" "B2" * angleAt place "A" "O" own).im -
        (angleAt place "A1" "O1" "B1" * angleAt place "A2" "O2" "B2" * angleAt place "A" "O" own).re *
          (place "T").re := by
    unfold angleAt
    rw [← numberAt_tangentOfSum, ← numberAt_tangentOfSum]
    simp [angleRayToSixty, Tangent.numberAt, coordinate, coordinatesAt]
  rw [hvalue, exists_eq_smul_iff sixtyAt_ne_zero, sixtyAt, mul_one]

/-- The points where two given angles are completed are those of one line. -/
theorem exists_line_angleRayToSixty (hfirst : angleAt place "A1" "O1" "B1" ≠ 0)
    (hsecond : angleAt place "A2" "O2" "B2" ≠ 0) (hao : place "A" ≠ place "O") :
    ∃ v : ComplexOver K, v ≠ 0 ∧ ∀ p,
      angleRayToSixty.valueAt (coordinatesAt (Function.update place own p)) = 0 ↔
        ∃ t : K, p = place "O" + t • v := by
  have hray : star (place "A" - place "O") ≠ 0 := star_ne_zero.2 (sub_ne_zero.2 hao)
  have hturn := mul_ne_zero (mul_ne_zero hfirst hsecond) hray
  have hend : sixtyAt place ≠ 0 := sixtyAt_ne_zero
  refine ⟨_, mul_ne_zero (star_ne_zero.2 hturn) hend, fun p => ?_⟩
  have hsixty : sixtyAt (Function.update place own p) = sixtyAt place := by
    rw [sixtyAt, Function.update_of_ne (by decide), sixtyAt]
  rw [valueAt_angleRayToSixty_eq_zero_iff, angleAt_update (by decide) (by decide) (by decide),
    angleAt_update (by decide) (by decide) (by decide), angleAt_eq "A" "O" own, Function.update_self,
    Function.update_of_ne (by decide), Function.update_of_ne (by decide), hsixty, ← mul_assoc,
    exists_mul_eq_smul_iff hturn]
  simp only [sub_eq_iff_eq_add']

/-- The tangent of an angle is the number between its arms, and tangents multiply where angles are added, so that
neither brackets nor order matter. The template of a ray is zero where the new point is a turned and stretched image
of the one on the arm; that of a ray that completes two angles is zero where the sum of the three ends in `T`, and
these are the points of one line through the vertex. -/
theorem describes_rays (place : Label → ComplexOver K) :
    (∀ a o b, angleAt place a o b = star (place a - place o) * (place b - place o)) ∧
    (∀ s t : Tangent, (tangentOfSum s t).numberAt (coordinatesAt place) =
      s.numberAt (coordinatesAt place) * t.numberAt (coordinatesAt place)) ∧
    (∀ s t : AngleSum, s.angles.Perm t.angles → s.tangent = t.tangent) ∧
    (place "A" ≠ place "O" → angleAt place "A1" "O1" "B1" ≠ 0 →
      (angleRay.valueAt (coordinatesAt place) = 0 ↔
        ∃ t : K, place own = place "O" + t • ((place "A" - place "O") * angleAt place "A1" "O1" "B1"))) ∧
    (angleRayToSixty.valueAt (coordinatesAt place) = 0 ↔
      ∃ t : K, angleAt place "A1" "O1" "B1" * angleAt place "A2" "O2" "B2" *
        (star (place "A" - place "O") * (place own - place "O")) = t • sixtyAt place) ∧
    (angleAt place "A1" "O1" "B1" ≠ 0 → angleAt place "A2" "O2" "B2" ≠ 0 → place "A" ≠ place "O" →
      ∃ v : ComplexOver K, v ≠ 0 ∧ ∀ p,
        angleRayToSixty.valueAt (coordinatesAt (Function.update place own p)) = 0 ↔
          ∃ t : K, p = place "O" + t • v) := by
  refine ⟨angleAt_eq, numberAt_tangentOfSum _, fun _ _ => AngleSum.tangent_eq_of_perm,
    valueAt_angleRay_eq_zero_iff, ?_, exists_line_angleRayToSixty⟩
  rw [valueAt_angleRayToSixty_eq_zero_iff, angleAt_eq "A" "O" own]

end Rays

/-- An angle of half a right one, one of tangent two, and a point that completes them to one of tangent minus a half. -/
def anglePlace (l : Label) : ComplexOver ℚ :=
  if l = "A" ∨ l = "A1" ∨ l = "A2" then ⟨1, 0⟩ else if l = "B1" then ⟨1, 1⟩ else if l = "B2" then ⟨1, 2⟩
  else if l = "T" then ⟨-1 / 2, 0⟩ else if l = Template.own then ⟨2, 2⟩ else 0

theorem describes_rays_anglePlace :
    anglePlace "A" ≠ anglePlace "O" ∧ angleAt anglePlace "A1" "O1" "B1" ≠ 0 ∧
    angleAt anglePlace "A2" "O2" "B2" ≠ 0 ∧
    (∀ r s t : Tangent, Template.tangentOfSum (Template.tangentOfSum r s) t =
      Template.tangentOfSum t (Template.tangentOfSum s r)) ∧
    Template.angleRay.valueAt (coordinatesAt anglePlace) = 0 ∧
    Template.angleRayToSixty.valueAt (coordinatesAt anglePlace) = 0 ∧
    ∃ v : ComplexOver ℚ, v ≠ 0 ∧ ∀ p,
      Template.angleRayToSixty.valueAt (coordinatesAt (Function.update anglePlace Template.own p)) = 0 ↔
        ∃ t : ℚ, p = anglePlace "O" + t • v := by
  obtain ⟨hangle, -, horder, hray, hsixty, hline⟩ := describes_rays anglePlace
  have hfirst : angleAt anglePlace "A1" "O1" "B1" = ⟨1, 1⟩ := by
    rw [hangle]
    decide +kernel
  have hsecond : angleAt anglePlace "A2" "O2" "B2" = ⟨1, 2⟩ := by
    rw [hangle]
    decide +kernel
  rw [hfirst] at hray
  rw [hfirst, hsecond] at hsixty hline
  rw [hfirst, hsecond]
  have hao : anglePlace "A" ≠ anglePlace "O" := by decide +kernel
  have hgiven : (⟨1, 1⟩ : ComplexOver ℚ) ≠ 0 ∧ (⟨1, 2⟩ : ComplexOver ℚ) ≠ 0 := by decide +kernel
  refine ⟨hao, hgiven.1, hgiven.2, fun r s t => ?_, (hray hao hgiven.1).2 ⟨2, by decide +kernel⟩,
    hsixty.2 ⟨-8, by decide +kernel⟩, hline hgiven.1 hgiven.2 hao⟩
  exact horder (.add (.add (.angle r) (.angle s)) (.angle t)) (.add (.angle t) (.add (.angle s) (.angle r)))
    (List.reverse_perm [t, s, r])

end Planimetry
