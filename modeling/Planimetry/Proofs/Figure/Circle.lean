import Planimetry.Proofs.Determinant
import Planimetry.Proofs.Figure.Image

/-! Circles through three points, about a center, and over a diameter: where their templates vanish together, and
how the order of four points matters. -/

namespace Planimetry

namespace Template

/-- The value is zero where each role has the given place. -/
def VanishesAt (place : Label → ℚ × ℚ) (t : Template) : Prop := t.value (fun r => some (place r)) = .ok 0

instance (place : Label → ℚ × ℚ) (t : Template) : Decidable (t.VanishesAt place) :=
  inferInstanceAs (Decidable (_ = _))

variable {place : Label → ℚ × ℚ} {t : Template}

theorem vanishesAt_iff : t.VanishesAt place ↔ t.valueAt (located place) = 0 := by
  have hplaced : t.checkRoles (fun r => some (place r)) = .ok () := checkRoles_eq_ok.2 fun _ _ => rfl
  unfold VanishesAt value
  simp only [hplaced, bind, Except.bind, pure, Except.pure, Except.ok.injEq]
  rw [Polynomial.eval_eq_valueAt]
  refine iff_of_eq (congr_arg (fun σ => t.valueAt σ = 0) (funext fun v => ?_))
  rcases v with _ | _ | ⟨r, _ | _⟩ <;> rfl

/-! ### Four points in another order -/

section Order

/-- Only the sign depends on the order of the points: it is that of the permutation. -/
theorem concyclic_perm (points : Fin 4 → Label) (π : Equiv.Perm (Fin 4)) :
    concyclic (points (π 0)) (points (π 1)) (points (π 2)) (points (π 3)) =
      (concyclic (points 0) (points 1) (points 2) (points 3)).scale (Equiv.Perm.sign π : ℤ) := by
  have hdet := Matrix.det_permute π (Matrix.of fun i => circleRow (R := MvPolynomial Variable ℚ) .X (points i))
  have hvalue := valueAt_concyclic (R := MvPolynomial Variable ℚ) .X (points ∘ π)
  simp only [Function.comp_apply] at hvalue
  refine Polynomial.toMv_injective ?_
  rw [Polynomial.toMv_scale, ← Polynomial.valueAt_X, ← Polynomial.valueAt_X, valueAt_concyclic, hvalue, map_intCast,
    ← hdet]
  rfl

end Order

/-! ### Circles about a center -/

section Center

variable (place) (a b c o q : Label)

theorem valueAt_onCircle : (onCircle q o a).valueAt (located place) =
    dot (place o - place q) (place o - place q) - dot (place o - place a) (place o - place a) := by
  simp [onCircle, valueAt_squareDistance, roleValue, located, dot]

theorem valueAt_onCircleWithDiameter : (onCircleWithDiameter q a b).valueAt (located place) =
    dot (place q - place a) (place q - place b) := by
  simp [onCircleWithDiameter, between, position, coordinate, Vector.dot, located, dot]

/-- The determinant as seen from any point: the squared distances of four points weigh the triangles of the others. -/
theorem valueAt_concyclic_about (o : ℚ × ℚ) : (concyclic a b c q).valueAt (located place) =
    dot (place a - o) (place a - o) * cross (place c - place b) (place q - place b) -
      dot (place b - o) (place b - o) * cross (place c - place a) (place q - place a) +
      dot (place c - o) (place c - o) * cross (place b - place a) (place q - place a) -
      dot (place q - o) (place q - o) * cross (place b - place a) (place c - place a) := by
  refine (valueAt_concyclic_eq (located place) a b c q).trans ?_
  simp only [located, dot, cross, Prod.fst_sub, Prod.snd_sub]
  ring

/-- Where three points have the same distance from a center, the determinant is that of their triangle times the
distance of the fourth point from their circle. -/
theorem valueAt_concyclic_of_center
    (hb : dot (place a - place o) (place a - place o) - dot (place b - place o) (place b - place o) = 0)
    (hc : dot (place a - place o) (place a - place o) - dot (place c - place o) (place c - place o) = 0) :
    (concyclic a b c q).valueAt (located place) =
      cross (place b - place a) (place c - place a) * -(onCircle q o a).valueAt (located place) := by
  have hareas : cross (place c - place b) (place q - place b) =
      cross (place c - place a) (place q - place a) - cross (place b - place a) (place q - place a) +
        cross (place b - place a) (place c - place a) := by
    simp only [cross, Prod.fst_sub, Prod.snd_sub]
    ring
  -- seen from the center, three of the four squared distances are equal
  rw [valueAt_concyclic_about _ _ _ _ _ (place o), valueAt_onCircle, hareas]
  have hflip (x y : ℚ × ℚ) : dot (x - y) (x - y) = dot (y - x) (y - x) := by
    simp only [dot, Prod.fst_sub, Prod.snd_sub]
    ring
  rw [hflip (place o) (place q), hflip (place o) (place a)]
  linear_combination cross (place c - place a) (place q - place a) * hb -
    cross (place b - place a) (place q - place a) * hc

end Center

end Template

/-- The templates of circles agree. Four points are concyclic with the first three about a center exactly if the fourth
is as far from the center; another order of the four changes the template by the sign of the permutation; and a circle
over a diameter is that about the midpoint. -/
theorem circles_agree (place : Label → ℚ × ℚ) :
    (∀ a b c o q, ¬Collinear ℚ {place a, place b, place c} →
      (∀ way ∈ Condition.both o [("A", a), ("B", b), ("C", c)] Template.circleCenter, ∀ d ∈ way, d.HoldsAt place) →
      ((Template.concyclic a b c q).VanishesAt place ↔ (Template.onCircle q o a).VanishesAt place)) ∧
    (∀ (points : Fin 4 → Label) (π : Equiv.Perm (Fin 4)),
      Template.concyclic (points (π 0)) (points (π 1)) (points (π 2)) (points (π 3)) =
        (Template.concyclic (points 0) (points 1) (points 2) (points 3)).scale (Equiv.Perm.sign π : ℤ)) ∧
    ∀ a b m q, place m = midpoint ℚ (place a) (place b) →
      ((Template.onCircleWithDiameter q a b).VanishesAt place ↔ (Template.onCircle q m a).VanishesAt place) := by
  refine ⟨?_, Template.concyclic_perm, ?_⟩
  · intro a b c o q hcollinear hcenter
    rw [Condition.holdsAt_circleCenter, Prod.mk_eq_zero] at hcenter
    rw [collinear_iff_cross] at hcollinear
    have hvalue := Template.valueAt_concyclic_of_center place a b c o q hcenter.1 hcenter.2
    rw [Template.vanishesAt_iff, Template.vanishesAt_iff, hvalue, mul_eq_zero_iff_left hcollinear, neg_eq_zero]
  · intro a b m q hm
    have hvalue : (Template.onCircleWithDiameter q a b).valueAt (Template.located place) =
        (Template.onCircle q m a).valueAt (Template.located place) := by
      rw [Template.valueAt_onCircleWithDiameter, Template.valueAt_onCircle, hm, midpoint_eq_smul_add, invOf_eq_inv]
      simp only [dot, Prod.fst_sub, Prod.snd_sub, Prod.smul_fst, Prod.smul_snd, Prod.fst_add, Prod.snd_add,
        smul_eq_mul]
      ring
    rw [Template.vanishesAt_iff, Template.vanishesAt_iff, hvalue]

/-- Three points about the origin, two more points, and the midpoint of the first two. -/
def circlePlace (l : Label) : ℚ × ℚ :=
  if l = "A" then (5, 0) else if l = "B" then (3, 4) else if l = "C" then (0, 5) else if l = "M" then (4, 2)
  else if l = "P" then (-4, 3) else if l = "Q" then (5, 4) else (0, 0)

theorem circles_agree_circlePlace :
    ¬Collinear ℚ {circlePlace "A", circlePlace "B", circlePlace "C"} ∧
    (∀ way ∈ Condition.both "O" [("A", "A"), ("B", "B"), ("C", "C")] Template.circleCenter,
      ∀ d ∈ way, d.HoldsAt circlePlace) ∧
    (Template.concyclic "A" "B" "C" "P").VanishesAt circlePlace ∧
    ¬(Template.concyclic "A" "B" "C" "Q").VanishesAt circlePlace ∧
    circlePlace "M" = midpoint ℚ (circlePlace "A") (circlePlace "B") ∧
    (Template.onCircle "Q" "M" "A").VanishesAt circlePlace := by
  obtain ⟨hcenter, -, hdiameter⟩ := circles_agree circlePlace
  have hcorners : ¬Collinear ℚ {circlePlace "A", circlePlace "B", circlePlace "C"} := by decide +kernel
  have hholds : ∀ way ∈ Condition.both "O" [("A", "A"), ("B", "B"), ("C", "C")] Template.circleCenter,
      ∀ d ∈ way, d.HoldsAt circlePlace := by decide +kernel
  have hmiddle : circlePlace "M" = midpoint ℚ (circlePlace "A") (circlePlace "B") := by decide +kernel
  have hfour (q : Label) := hcenter _ _ _ _ q hcorners hholds
  exact ⟨hcorners, hholds, (hfour "P").2 (by decide +kernel), mt (hfour "Q").1 (by decide +kernel), hmiddle,
    (hdiameter _ _ _ "Q" hmiddle).1 (by decide +kernel)⟩

end Planimetry
