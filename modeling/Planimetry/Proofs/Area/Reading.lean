import Planimetry.Proofs.Area.Simplification

/-! Readings of expressions, with markers looked through or not: every rule of simplification keeps the value that
an expression is read to have, and so do all passes. -/

namespace Planimetry.Area

variable {ν : Quantity → ℚ}

namespace Expr

variable {e e' : Expr} {x : ℚ}

/-! ### Readings -/

/-- A relation between expressions and values in which numbers stand for themselves and nodes for the
operations, and no expression has two values. -/
structure IsReading (R : Expr → ℚ → Prop) : Prop where
  number {q x : ℚ} : R (.number q) x ↔ q = x
  neg {a : Expr} {x : ℚ} : R (.neg a) x ↔ ∃ y, R a y ∧ x = -y
  add {a b : Expr} {x : ℚ} : R (.add a b) x ↔ ∃ y z, R a y ∧ R b z ∧ x = y + z
  sub {a b : Expr} {x : ℚ} : R (.sub a b) x ↔ ∃ y z, R a y ∧ R b z ∧ x = y - z
  mul {a b : Expr} {x : ℚ} : R (.mul a b) x ↔ ∃ y z, R a y ∧ R b z ∧ x = y * z
  div {a b : Expr} {x : ℚ} : R (.div a b) x ↔ ∃ y z, R a y ∧ R b z ∧ z ≠ 0 ∧ x = y / z
  unique {a : Expr} {x y : ℚ} (hx : R a x) (hy : R a y) : x = y

theorem isReading_denotes (ν : Quantity → ℚ) : IsReading (Denotes ν) where
  number := denotes_number_iff
  neg := denotes_neg_iff
  add := denotes_add_iff
  sub := denotes_sub_iff
  mul := denotes_mul_iff
  div := denotes_div_iff
  unique := Denotes.eq

namespace IsReading

variable {R : Expr → ℚ → Prop} {a b c d m n : Expr} {x y : ℚ} (hR : IsReading R)

include hR

theorem neg_intro (ha : R a x) : R (.neg a) (-x) := hR.neg.2 ⟨x, ha, rfl⟩

theorem add_intro (ha : R a x) (hb : R b y) : R (.add a b) (x + y) := hR.add.2 ⟨x, y, ha, hb, rfl⟩

theorem sub_intro (ha : R a x) (hb : R b y) : R (.sub a b) (x - y) := hR.sub.2 ⟨x, y, ha, hb, rfl⟩

theorem mul_intro (ha : R a x) (hb : R b y) : R (.mul a b) (x * y) := hR.mul.2 ⟨x, y, ha, hb, rfl⟩

theorem div_intro (ha : R a x) (hb : R b y) (hy : y ≠ 0) : R (.div a b) (x / y) :=
  hR.div.2 ⟨x, y, ha, hb, hy, rfl⟩

/-- Fractions with the same denominator. -/
theorem common_denominator (ha : R (.div m c) x) (hb : R (.div n c) y) :
    ∃ s t u, R m s ∧ R n t ∧ R c u ∧ u ≠ 0 ∧ x = s / u ∧ y = t / u := by
  obtain ⟨s, u, hs, hu, hne, rfl⟩ := hR.div.1 ha
  obtain ⟨t, u', ht, hu', -, rfl⟩ := hR.div.1 hb
  obtain rfl := hR.unique hu hu'
  exact ⟨s, t, u, hs, ht, hu, hne, rfl, rfl⟩

/-! ### Each rule

What stands before a rule is read, and what stands after it has the same value. -/

theorem of_neg_neg (h : R (.neg (.neg a)) x) : R a x := by
  obtain ⟨y, hy, rfl⟩ := hR.neg.1 h
  obtain ⟨z, hz, rfl⟩ := hR.neg.1 hy
  rwa [neg_neg]

theorem of_neg_number {q : ℚ} (h : R (.neg (.number q)) x) : R (.number (-q)) x := by
  obtain ⟨y, hy, rfl⟩ := hR.neg.1 h
  obtain rfl := hR.number.1 hy
  exact hR.number.2 rfl

theorem of_zero_add (h : R (.add .zero b) x) : R b x := by
  obtain ⟨y, z, hy, hz, rfl⟩ := hR.add.1 h
  rwa [← hR.number.1 hy, zero_add]

theorem of_add_zero (h : R (.add a .zero) x) : R a x := by
  obtain ⟨y, z, hy, hz, rfl⟩ := hR.add.1 h
  rwa [← hR.number.1 hz, add_zero]

theorem of_add_number {p q : ℚ} (h : R (.add (.number p) (.number q)) x) : R (.number (p + q)) x := by
  obtain ⟨y, z, hy, hz, rfl⟩ := hR.add.1 h
  rw [← hR.number.1 hy, ← hR.number.1 hz]
  exact hR.number.2 rfl

theorem of_add_neg (h : R (.add a (.neg b)) x) : R (.sub a b) x := by
  obtain ⟨y, z, hy, hz, rfl⟩ := hR.add.1 h
  obtain ⟨w, hw, rfl⟩ := hR.neg.1 hz
  rw [← sub_eq_add_neg]
  exact hR.sub_intro hy hw

theorem of_neg_add (h : R (.add (.neg a) b) x) : R (.sub b a) x := by
  obtain ⟨y, z, hy, hz, rfl⟩ := hR.add.1 h
  obtain ⟨w, hw, rfl⟩ := hR.neg.1 hy
  rw [neg_add_eq_sub]
  exact hR.sub_intro hz hw

theorem of_add_div (h : R (.add (.div m c) (.div n c)) x) : R (.div (.add m n) c) x := by
  obtain ⟨y, z, hy, hz, rfl⟩ := hR.add.1 h
  obtain ⟨s, t, u, hs, ht, hu, hne, rfl, rfl⟩ := hR.common_denominator hy hz
  rw [← add_div]
  exact hR.div_intro (hR.add_intro hs ht) hu hne

theorem of_sub_zero (h : R (.sub a .zero) x) : R a x := by
  obtain ⟨y, z, hy, hz, rfl⟩ := hR.sub.1 h
  rwa [← hR.number.1 hz, sub_zero]

theorem of_zero_sub (h : R (.sub .zero b) x) : R (.neg b) x := by
  obtain ⟨y, z, hy, hz, rfl⟩ := hR.sub.1 h
  rw [← hR.number.1 hy, zero_sub]
  exact hR.neg_intro hz

theorem of_sub_number {p q : ℚ} (h : R (.sub (.number p) (.number q)) x) : R (.number (p - q)) x := by
  obtain ⟨y, z, hy, hz, rfl⟩ := hR.sub.1 h
  rw [← hR.number.1 hy, ← hR.number.1 hz]
  exact hR.number.2 rfl

theorem of_sub_self (h : R (.sub a a) x) : R .zero x := by
  obtain ⟨y, z, hy, hz, rfl⟩ := hR.sub.1 h
  rw [hR.unique hy hz, sub_self]
  exact hR.number.2 rfl

theorem of_sub_neg (h : R (.sub a (.neg b)) x) : R (.add a b) x := by
  obtain ⟨y, z, hy, hz, rfl⟩ := hR.sub.1 h
  obtain ⟨w, hw, rfl⟩ := hR.neg.1 hz
  rw [sub_neg_eq_add]
  exact hR.add_intro hy hw

theorem of_sub_div (h : R (.sub (.div m c) (.div n c)) x) : R (.div (.sub m n) c) x := by
  obtain ⟨y, z, hy, hz, rfl⟩ := hR.sub.1 h
  obtain ⟨s, t, u, hs, ht, hu, hne, rfl, rfl⟩ := hR.common_denominator hy hz
  rw [← sub_div]
  exact hR.div_intro (hR.sub_intro hs ht) hu hne

theorem of_zero_mul (h : R (.mul .zero b) x) : R .zero x := by
  obtain ⟨y, z, hy, hz, rfl⟩ := hR.mul.1 h
  rw [← hR.number.1 hy, zero_mul]
  exact hR.number.2 rfl

theorem of_mul_zero (h : R (.mul a .zero) x) : R .zero x := by
  obtain ⟨y, z, hy, hz, rfl⟩ := hR.mul.1 h
  rw [← hR.number.1 hz, mul_zero]
  exact hR.number.2 rfl

theorem of_one_mul (h : R (.mul .one b) x) : R b x := by
  obtain ⟨y, z, hy, hz, rfl⟩ := hR.mul.1 h
  rwa [← hR.number.1 hy, one_mul]

theorem of_mul_one (h : R (.mul a .one) x) : R a x := by
  obtain ⟨y, z, hy, hz, rfl⟩ := hR.mul.1 h
  rwa [← hR.number.1 hz, mul_one]

theorem of_mul_number {p q : ℚ} (h : R (.mul (.number p) (.number q)) x) : R (.number (p * q)) x := by
  obtain ⟨y, z, hy, hz, rfl⟩ := hR.mul.1 h
  rw [← hR.number.1 hy, ← hR.number.1 hz]
  exact hR.number.2 rfl

theorem of_minusOne_mul (h : R (.mul .minusOne b) x) : R (.neg b) x := by
  obtain ⟨y, z, hy, hz, rfl⟩ := hR.mul.1 h
  rw [← hR.number.1 hy, neg_one_mul]
  exact hR.neg_intro hz

theorem of_mul_minusOne (h : R (.mul a .minusOne) x) : R (.neg a) x := by
  obtain ⟨y, z, hy, hz, rfl⟩ := hR.mul.1 h
  rw [← hR.number.1 hz, mul_neg_one]
  exact hR.neg_intro hy

theorem of_neg_mul_neg (h : R (.mul (.neg a) (.neg b)) x) : R (.mul a b) x := by
  obtain ⟨y, z, hy, hz, rfl⟩ := hR.mul.1 h
  obtain ⟨s, hs, rfl⟩ := hR.neg.1 hy
  obtain ⟨t, ht, rfl⟩ := hR.neg.1 hz
  rw [neg_mul_neg]
  exact hR.mul_intro hs ht

theorem of_div_mul_div (h : R (.mul (.div m c) (.div n d)) x) : R (.div (.mul m n) (.mul c d)) x := by
  obtain ⟨y, z, hy, hz, rfl⟩ := hR.mul.1 h
  obtain ⟨s, t, hs, ht, hne, rfl⟩ := hR.div.1 hy
  obtain ⟨u, w, hu, hw, hne', rfl⟩ := hR.div.1 hz
  rw [div_mul_div_comm]
  exact hR.div_intro (hR.mul_intro hs hu) (hR.mul_intro ht hw) (mul_ne_zero hne hne')

theorem of_div_mul (h : R (.mul (.div m c) b) x) : R (.div (.mul m b) c) x := by
  obtain ⟨y, z, hy, hz, rfl⟩ := hR.mul.1 h
  obtain ⟨s, t, hs, ht, hne, rfl⟩ := hR.div.1 hy
  rw [← mul_div_right_comm]
  exact hR.div_intro (hR.mul_intro hs hz) ht hne

theorem of_mul_div (h : R (.mul a (.div n d)) x) : R (.div (.mul a n) d) x := by
  obtain ⟨y, z, hy, hz, rfl⟩ := hR.mul.1 h
  obtain ⟨s, t, hs, ht, hne, rfl⟩ := hR.div.1 hz
  rw [← mul_div_assoc]
  exact hR.div_intro (hR.mul_intro hy hs) ht hne

theorem of_zero_div (h : R (.div .zero d) x) : R .zero x := by
  obtain ⟨y, z, hy, hz, hne, rfl⟩ := hR.div.1 h
  rw [← hR.number.1 hy, zero_div]
  exact hR.number.2 rfl

theorem of_div_one (h : R (.div n .one) x) : R n x := by
  obtain ⟨y, z, hy, hz, hne, rfl⟩ := hR.div.1 h
  rwa [← hR.number.1 hz, div_one]

theorem of_div_number {p q : ℚ} (h : R (.div (.number p) (.number q)) x) : R (.number (p / q)) x := by
  obtain ⟨y, z, hy, hz, hne, rfl⟩ := hR.div.1 h
  rw [← hR.number.1 hy, ← hR.number.1 hz]
  exact hR.number.2 rfl

/-- The value of the denominator is not zero, as the fraction is read. -/
theorem of_div_self (h : R (.div n n) x) : R .one x := by
  obtain ⟨y, z, hy, hz, hne, rfl⟩ := hR.div.1 h
  rw [hR.unique hy hz, div_self hne]
  exact hR.number.2 rfl

theorem of_div_minusOne (h : R (.div n .minusOne) x) : R (.neg n) x := by
  obtain ⟨y, z, hy, hz, hne, rfl⟩ := hR.div.1 h
  rw [← hR.number.1 hz, div_neg, div_one]
  exact hR.neg_intro hy

/-- The denominator that comes up is the numerator of one that is not zero. -/
theorem of_div_div_div (h : R (.div (.div a b) (.div c d)) x) : R (.div (.mul a d) (.mul b c)) x := by
  obtain ⟨y, z, hy, hz, hne, rfl⟩ := hR.div.1 h
  obtain ⟨s, t, hs, ht, hne', rfl⟩ := hR.div.1 hy
  obtain ⟨u, w, hu, hw, -, rfl⟩ := hR.div.1 hz
  rw [div_div_div_eq]
  exact hR.div_intro (hR.mul_intro hs hw) (hR.mul_intro ht hu)
    (mul_ne_zero hne' (div_ne_zero_iff.1 hne).1)

theorem of_div_div_left (h : R (.div (.div a b) d) x) : R (.div a (.mul b d)) x := by
  obtain ⟨y, z, hy, hz, hne, rfl⟩ := hR.div.1 h
  obtain ⟨s, t, hs, ht, hne', rfl⟩ := hR.div.1 hy
  rw [div_div]
  exact hR.div_intro hs (hR.mul_intro ht hz) (mul_ne_zero hne' hne)

theorem of_div_div_right (h : R (.div n (.div c d)) x) : R (.div (.mul n d) c) x := by
  obtain ⟨y, z, hy, hz, hne, rfl⟩ := hR.div.1 h
  obtain ⟨s, t, hs, ht, -, rfl⟩ := hR.div.1 hz
  rw [div_div_eq_mul_div]
  exact hR.div_intro (hR.mul_intro hy ht) hs (div_ne_zero_iff.1 hne).1

/-- Every rule keeps the value. -/
theorem rewrites (h : a.Rewrites b) (ha : R a x) : R b x := by
  cases h with
  | neg_neg => exact hR.of_neg_neg ha
  | neg_number => exact hR.of_neg_number ha
  | zero_add => exact hR.of_zero_add ha
  | add_zero => exact hR.of_add_zero ha
  | add_number => exact hR.of_add_number ha
  | add_neg => exact hR.of_add_neg ha
  | neg_add => exact hR.of_neg_add ha
  | add_div => exact hR.of_add_div ha
  | sub_zero => exact hR.of_sub_zero ha
  | zero_sub => exact hR.of_zero_sub ha
  | sub_number => exact hR.of_sub_number ha
  | sub_self => exact hR.of_sub_self ha
  | sub_neg => exact hR.of_sub_neg ha
  | sub_div => exact hR.of_sub_div ha
  | zero_mul => exact hR.of_zero_mul ha
  | mul_zero => exact hR.of_mul_zero ha
  | one_mul => exact hR.of_one_mul ha
  | mul_one => exact hR.of_mul_one ha
  | mul_number => exact hR.of_mul_number ha
  | minusOne_mul => exact hR.of_minusOne_mul ha
  | mul_minusOne => exact hR.of_mul_minusOne ha
  | neg_mul_neg => exact hR.of_neg_mul_neg ha
  | div_mul_div => exact hR.of_div_mul_div ha
  | div_mul => exact hR.of_div_mul ha
  | mul_div => exact hR.of_mul_div ha
  | zero_div => exact hR.of_zero_div ha
  | div_one => exact hR.of_div_one ha
  | div_number => exact hR.of_div_number ha
  | div_self => exact hR.of_div_self ha
  | div_minusOne => exact hR.of_div_minusOne ha
  | div_div_div => exact hR.of_div_div_div ha
  | div_div_left => exact hR.of_div_div_left ha
  | div_div_right => exact hR.of_div_div_right ha

/-! ### Passes -/

/-- A reading that simplified quantities keep, and markers, is kept by passes. -/
theorem isStable (hatom : ∀ {q e x}, q.simplify = .ok e → R (.atom q) x → R e x)
    (helim : ∀ {a b p x}, (∀ y, R a y → R b y) → R (.elim a p) x → R (.elim b p) x) :
    IsStable fun a b => ∀ x, R a x → R b x where
  number q x h := h
  atom h x := hatom h
  neg ha x h := by
    obtain ⟨y, hy, rfl⟩ := hR.neg.1 h
    exact hR.neg_intro (ha y hy)
  add ha hb x h := by
    obtain ⟨y, z, hy, hz, rfl⟩ := hR.add.1 h
    exact hR.add_intro (ha y hy) (hb z hz)
  sub ha hb x h := by
    obtain ⟨y, z, hy, hz, rfl⟩ := hR.sub.1 h
    exact hR.sub_intro (ha y hy) (hb z hz)
  mul ha hb x h := by
    obtain ⟨y, z, hy, hz, rfl⟩ := hR.mul.1 h
    exact hR.mul_intro (ha y hy) (hb z hz)
  div ha hb x h := by
    obtain ⟨y, z, hy, hz, hne, rfl⟩ := hR.div.1 h
    exact hR.div_intro (ha y hy) (hb z hz) hne
  elim p ha x := helim ha
  rewrites h hbc x ha := hR.rewrites hbc (h x ha)

end IsReading

/-- One pass keeps the value. -/
theorem Denotes.simplifyOnce (hν : RespectsOrientation ν) (he : e.Denotes ν x)
    (h : e.simplifyOnce = .ok e') : e'.Denotes ν x := by
  have hstable := (isReading_denotes ν).isStable
    (fun hq hx => (Quantity.denotes_simplify hν.respectsDegeneracy hq).of_eq hx.2)
    (fun _ hx => (not_denotes_elim hx).elim)
  exact hstable.of_simplifyOnce h x he

/-- Simplification keeps the value, whether or not it settles. -/
theorem Denotes.simplify (hν : RespectsOrientation ν) (he : e.Denotes ν x) {limit : Int}
    {settled : Bool} (h : e.simplify limit = .ok (e', settled)) : e'.Denotes ν x :=
  of_simplifyWithin (p := fun a => a.Denotes ν x) (fun ha hpass => ha.simplifyOnce hν hpass) he h

end Expr

end Planimetry.Area
