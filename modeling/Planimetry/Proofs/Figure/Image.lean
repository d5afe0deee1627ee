import Mathlib.LinearAlgebra.AffineSpace.FiniteDimensional
import Planimetry.Proofs.Figure.Placing

/-! The image that a rule gives to its point: midpoints, shifts and turns, feet, mirror images, centers of circles. -/

namespace Planimetry

/-! ### Points of the plane -/

section Plane

/-- The foot of the perpendicular from a point to the line through two others. -/
def footPoint (q a b : ℚ × ℚ) : ℚ × ℚ := a + (dot (b - a) (q - a) / dot (b - a) (b - a)) • (b - a)

/-- The mirror image of a point in the line through two others. -/
def mirrorPoint (q a b : ℚ × ℚ) : ℚ × ℚ := (2 : ℚ) • footPoint q a b - q

/-- The center of the circle through three points. -/
def circumcenter (a b c : ℚ × ℚ) : ℚ × ℚ :=
  let u := b - a
  let v := c - a
  -- the vector from `a` whose products with `u` and `v` are half their squares
  a + (1 / cross u v) • ((dot v v / 2) • turned u - (dot u u / 2) • turned v)

variable {u v w a b c q x : ℚ × ℚ} {s t : ℚ}

theorem dot_self_ne_zero (h : v ≠ 0) : dot v v ≠ 0 := by
  intro hzero
  obtain ⟨hx, hy⟩ := mul_self_add_mul_self_eq_zero.1 hzero
  exact h (Prod.ext hx hy)

/-- Both products with one direction tell a vector. -/
theorem cross_eq_zero_and_dot_eq (hv : v ≠ 0) :
    cross v w = 0 ∧ dot v w = s ↔ w = (s / dot v v) • v := by
  have hne := dot_self_ne_zero hv
  constructor
  · rintro ⟨hcross, rfl⟩
    unfold cross dot at *
    refine Prod.ext ?_ ?_
    · rw [Prod.smul_fst, smul_eq_mul, div_mul_eq_mul_div, eq_div_iff hne]
      linear_combination -v.2 * hcross
    · rw [Prod.smul_snd, smul_eq_mul, div_mul_eq_mul_div, eq_div_iff hne]
      linear_combination v.1 * hcross
  · rintro rfl
    have hcross : cross v ((s / dot v v) • v) = 0 := by
      simp only [cross, Prod.smul_fst, Prod.smul_snd, smul_eq_mul]
      ring
    have hdot : dot v ((s / dot v v) • v) = s / dot v v * dot v v := by
      simp only [dot, Prod.smul_fst, Prod.smul_snd, smul_eq_mul]
      ring
    exact ⟨hcross, hdot.trans (div_mul_cancel₀ s hne)⟩

/-- The scalar products with two directions tell a vector. -/
theorem dot_eq_and_dot_eq (h : cross u v ≠ 0) :
    dot u w = s ∧ dot v w = t ↔ w = (1 / cross u v) • (t • turned u - s • turned v) := by
  constructor
  · rintro ⟨rfl, rfl⟩
    have hvector : cross u v • w = dot v w • turned u - dot u w • turned v := by
      refine Prod.ext ?_ ?_ <;>
        simp only [cross, dot, turned, Prod.smul_fst, Prod.smul_snd, Prod.fst_sub, Prod.snd_sub, smul_eq_mul] <;>
        ring
    rw [← hvector, smul_smul, one_div_mul_cancel h, one_smul]
  · rintro rfl
    have hdot (z : ℚ × ℚ) : dot z ((1 / cross u v) • (t • turned u - s • turned v)) =
        1 / cross u v * (s * cross z v - t * cross z u) := by
      simp only [cross, dot, turned, Prod.smul_fst, Prod.smul_snd, Prod.fst_sub, Prod.snd_sub, smul_eq_mul]
      ring
    have hself (z : ℚ × ℚ) : cross z z = 0 := sub_eq_zero.2 (mul_comm z.1 z.2)
    have hswap : cross v u = -cross u v := by
      unfold cross
      ring
    rw [hdot, hdot, hself, hself, hswap]
    constructor
    · rw [mul_zero, sub_zero, mul_left_comm, one_div_mul_cancel h, mul_one]
    · rw [mul_zero, zero_sub, mul_neg, mul_neg, mul_neg, neg_neg, mul_left_comm, one_div_mul_cancel h, mul_one]

/-- Three points lie on one line exactly if the triangle between them has no area. -/
theorem collinear_iff_cross : Collinear ℚ {a, b, c} ↔ cross (b - a) (c - a) = 0 := by
  rw [collinear_iff_of_mem (Set.mem_insert a {b, c})]
  constructor
  · rintro ⟨v, hv⟩
    obtain ⟨r, hr⟩ := hv b (by simp)
    obtain ⟨s, hs⟩ := hv c (by simp)
    rw [hr, hs]
    simp only [cross, vadd_eq_add, add_sub_cancel_right, Prod.smul_fst, Prod.smul_snd, smul_eq_mul]
    ring
  · intro hcross
    by_cases hab : b - a = 0
    -- where two points coincide, the line goes through the third
    · refine ⟨c - a, ?_⟩
      rw [sub_eq_zero] at hab
      simp only [Set.mem_insert_iff, Set.mem_singleton_iff, forall_eq_or_imp, forall_eq, hab]
      exact ⟨⟨0, by simp⟩, ⟨0, by simp⟩, 1, by simp⟩
    · refine ⟨b - a, ?_⟩
      have hc := (cross_eq_zero_and_dot_eq hab).1 ⟨hcross, rfl⟩
      simp only [Set.mem_insert_iff, Set.mem_singleton_iff, forall_eq_or_imp, forall_eq]
      exact ⟨⟨0, by simp⟩, ⟨1, by simp⟩, _, eq_add_of_sub_eq hc⟩

instance decidableCollinear (a b c : ℚ × ℚ) : Decidable (Collinear ℚ {a, b, c}) :=
  decidable_of_iff _ collinear_iff_cross.symm

theorem mem_line_iff (hab : a ≠ b) : x ∈ line[ℚ, a, b] ↔ cross (b - a) (x - a) = 0 := by
  rw [← collinear_iff_cross]
  constructor
  · intro hx
    have hline := collinear_insert_of_mem_affineSpan_pair hx
    rwa [Set.insert_comm, Set.pair_comm x b] at hline
  · intro hline
    exact hline.mem_affineSpan_of_mem_of_ne (by simp) (by simp) (by simp) hab

theorem cross_sub_sub : cross (a - x) (b - x) = cross (b - a) (x - a) := by
  simp only [cross, Prod.fst_sub, Prod.snd_sub]
  ring

theorem dot_midpoint_sub : dot (midpoint ℚ q x - q) v = 1 / 2 * dot (x - q) v := by
  simp only [midpoint_eq_smul_add, invOf_eq_inv, dot, Prod.fst_sub, Prod.snd_sub, Prod.smul_fst, Prod.smul_snd,
    Prod.fst_add, Prod.snd_add, smul_eq_mul]
  ring

/-- The foot is the point of the line towards which the point lies at a right angle. -/
theorem eq_footPoint_iff (hab : a ≠ b) :
    x = footPoint q a b ↔ x ∈ line[ℚ, a, b] ∧ dot (x - q) (b - a) = 0 := by
  have hdot : dot (x - q) (b - a) = 0 ↔ dot (b - a) (x - a) = dot (b - a) (q - a) := by
    rw [← sub_eq_zero (a := dot (b - a) (x - a))]
    refine iff_of_eq (congr_arg (· = 0) ?_)
    simp only [dot, Prod.fst_sub, Prod.snd_sub]
    ring
  rw [mem_line_iff hab, hdot, cross_eq_zero_and_dot_eq (sub_ne_zero.2 hab.symm), footPoint, sub_eq_iff_eq_add']

/-- A point and its mirror image have the foot between them. -/
theorem eq_mirrorPoint_iff : x = mirrorPoint q a b ↔ midpoint ℚ q x = footPoint q a b := by
  rw [mirrorPoint, eq_sub_iff_add_eq, midpoint_eq_smul_add]
  constructor
  · intro h
    rw [add_comm q x, h, smul_smul, invOf_mul_self, one_smul]
  · intro h
    rw [← h, smul_smul, mul_invOf_self, one_smul, add_comm]

/-- The center is the only point with the same distance from all three points. -/
theorem eq_circumcenter_iff (habc : ¬Collinear ℚ {a, b, c}) : x = circumcenter a b c ↔
    dot (a - x) (a - x) = dot (b - x) (b - x) ∧ dot (a - x) (a - x) = dot (c - x) (c - x) := by
  have hdistance (y : ℚ × ℚ) : dot (a - x) (a - x) = dot (y - x) (y - x) ↔
      dot (y - a) (x - a) = dot (y - a) (y - a) / 2 := by
    simp only [dot, Prod.fst_sub, Prod.snd_sub]
    constructor
    · intro h
      linear_combination h / 2
    · intro h
      linear_combination 2 * h
  rw [hdistance, hdistance, dot_eq_and_dot_eq (mt collinear_iff_cross.2 habc), circumcenter, sub_eq_iff_eq_add']

end Plane

/-! ### Images -/

/-- Where a rule puts its point, if it leaves no choice and its generators are in general position. -/
def imageOf? (place : Label → ℚ × ℚ) : PointRule → Option (ℚ × ℚ)
  | .midpoint a b => some (midpoint ℚ (place a) (place b))
  | .shifted q a b => some (place q + place b - place a)
  | .symmetric q o => some ((2 : ℚ) • place o - place q)
  | .rotated q o => some (place o + turned (place q - place o))
  | .foot q a b => if place a = place b then none else some (footPoint (place q) (place a) (place b))
  | .reflected q a b => if place a = place b then none else some (mirrorPoint (place q) (place a) (place b))
  | .circleCenter a b c =>
    if Collinear ℚ {place a, place b, place c} then none
    else some (circumcenter (place a) (place b) (place c))
  | .free | .onLine _ | .onCircle _ | .intersection .. | .angleOfSixty => none

section Images

variable {place : Label → ℚ × ℚ} {image : ℚ × ℚ}

theorem Condition.exists_both {own : Label} {roles : List (Label × Label)} {ts : Template × Template} {P : Prop}
    (h : (∀ way ∈ both own roles ts, ∀ c ∈ way, c.HoldsAt place) ↔ P) :
    ∃ c d, (.ok (both own roles ts) : Except SetError (List Alternative)) = .ok [[c, d]] ∧
      (c.HoldsAt place ∧ d.HoldsAt place ↔ P) :=
  ⟨_, _, rfl, by simpa [both] using h⟩

/-- The two conditions of a point hold together exactly at its image. -/
theorem Protocol.exists_pointAlternatives (p : Protocol) (own : Label) (before : Int) {rule : PointRule}
    (h : imageOf? place rule = some image) :
    ∃ c d, p.pointAlternatives own before rule = .ok [[c, d]] ∧
      (c.HoldsAt place ∧ d.HoldsAt place ↔ place own = image) := by
  cases rule with
  | free | onLine | onCircle | intersection | angleOfSixty => cases h
  | midpoint a b =>
      cases h
      refine Condition.exists_both ((Condition.holdsAt_midpoint own a b).trans ?_)
      rw [sub_sub, sub_eq_zero, midpoint_eq_smul_add, eq_comm (b := ⅟2 • _), invOf_smul_eq_iff, eq_comm]
  | shifted q a b =>
      cases h
      refine Condition.exists_both ((Condition.holdsAt_shift own q a b).trans ?_)
      rw [sub_eq_zero, sub_eq_iff_eq_add', add_sub_assoc]
  | symmetric q o =>
      cases h
      refine Condition.exists_both ((Condition.holdsAt_centralSymmetry own q o).trans ?_)
      rw [sub_eq_zero, eq_sub_iff_add_eq]
  | rotated q o =>
      cases h
      refine Condition.exists_both ((Condition.holdsAt_quarterTurn own q o).trans ?_)
      rw [sub_eq_zero, sub_eq_iff_eq_add']
  | foot q a b =>
      rw [imageOf?, Option.ite_none_left_eq_some, Option.some_inj] at h
      obtain ⟨hab, rfl⟩ := h
      refine Condition.exists_both ((Condition.holdsAt_foot own q a b).trans ?_)
      rw [Prod.mk_eq_zero, eq_footPoint_iff hab, mem_line_iff hab, cross_sub_sub]
  | reflected q a b =>
      rw [imageOf?, Option.ite_none_left_eq_some, Option.some_inj] at h
      obtain ⟨hab, rfl⟩ := h
      refine Condition.exists_both ((Condition.holdsAt_reflection own q a b).trans ?_)
      -- the conditions are those of a foot, for the point midway
      rw [Prod.mk_eq_zero, eq_mirrorPoint_iff, eq_footPoint_iff hab, mem_line_iff hab, dot_midpoint_sub,
        mul_eq_zero_iff_left (by norm_num), midpoint_eq_smul_add, invOf_eq_inv, one_div, add_comm (place own)]
  | circleCenter a b c =>
      rw [imageOf?, Option.ite_none_left_eq_some, Option.some_inj] at h
      obtain ⟨habc, rfl⟩ := h
      refine Condition.exists_both ((Condition.holdsAt_circleCenter own a b c).trans ?_)
      rw [Prod.mk_eq_zero, sub_eq_zero, sub_eq_zero, eq_circumcenter_iff habc]

end Images

/-- A rule with one image gives one way to place its point, by two conditions, which hold together exactly at that
image. The foot is the point of the line at a right angle to the given point, the mirror image has the foot midway,
and the center of a circle is the one point with the same distance from the three. -/
theorem Protocol.places_image (p : Protocol) (place : Label → ℚ × ℚ) :
    (∀ s rule image, s.construction = .point rule → imageOf? place rule = some image →
      ∃ c d, p.alternatives s = .ok [[c, d]] ∧
        (c.HoldsAt place ∧ d.HoldsAt place ↔ place s.label = image)) ∧
    (∀ q a b x, a ≠ b → (x = footPoint q a b ↔ x ∈ line[ℚ, a, b] ∧ dot (x - q) (b - a) = 0)) ∧
    (∀ q a b x, x = mirrorPoint q a b ↔ midpoint ℚ q x = footPoint q a b) ∧
    ∀ a b c x, ¬Collinear ℚ {a, b, c} →
      (x = circumcenter a b c ↔
        dot (a - x) (a - x) = dot (b - x) (b - x) ∧ dot (a - x) (a - x) = dot (c - x) (c - x)) := by
  refine ⟨?_, fun _ _ _ _ => eq_footPoint_iff, fun _ _ _ _ => eq_mirrorPoint_iff,
    fun _ _ _ _ => eq_circumcenter_iff⟩
  intro s rule image hrule himage
  rw [alternatives, hrule]
  exact p.exists_pointAlternatives s.label s.index himage

/-- A triangle with the center of its circle. -/
def triangleFigure : Protocol :=
  .figure [("A", .point .free), ("B", .point .free), ("C", .point .free), ("O", .point (.circleCenter "A" "B" "C"))]

def trianglePlace (l : Label) : ℚ × ℚ :=
  if l = "B" then (4, 0) else if l = "C" then (0, 2) else if l = "O" then (2, 1) else (0, 0)

theorem places_image_triangleFigure :
    (∃ s, triangleFigure.get? "O" = some s ∧ imageOf? trianglePlace (.circleCenter "A" "B" "C") = some (2, 1) ∧
      ∃ c d, triangleFigure.alternatives s = .ok [[c, d]] ∧ c.HoldsAt trianglePlace ∧ d.HoldsAt trianglePlace) ∧
    (4 / 5, 8 / 5) ∈ line[ℚ, ((4, 0) : ℚ × ℚ), (0, 2)] ∧
    ¬Collinear ℚ {((0, 0) : ℚ × ℚ), (4, 0), (0, 2)} ∧
    dot ((0, 0) - (2, 1)) ((0, 0) - (2, 1)) = dot ((4, 0) - (2, 1)) ((4, 0) - (2, 1)) := by
  obtain ⟨hplaces, hfoot, -, hcenter⟩ := triangleFigure.places_image trianglePlace
  have himage : imageOf? trianglePlace (.circleCenter "A" "B" "C") = some (2, 1) := by decide +kernel
  have hstep : ∃ s, triangleFigure.get? "O" = some s ∧
      s.construction = .point (.circleCenter "A" "B" "C") ∧ s.label = "O" := by decide +kernel
  have hside : ((4, 0) : ℚ × ℚ) ≠ (0, 2) := by decide
  have hcorners : ¬Collinear ℚ {((0, 0) : ℚ × ℚ), (4, 0), (0, 2)} := by decide +kernel
  refine ⟨?_, ((hfoot (0, 0) _ _ _ hside).1 (by decide +kernel)).1, hcorners,
    ((hcenter _ _ _ _ hcorners).1 (by decide +kernel)).1⟩
  obtain ⟨s, hs, hrule, hlabel⟩ := hstep
  obtain ⟨c, d, hways, hholds⟩ := hplaces s _ _ hrule himage
  have hplace : trianglePlace s.label = (2, 1) := hlabel ▸ rfl
  exact ⟨s, hs, himage, c, d, hways, hholds.2 hplace⟩

end Planimetry
