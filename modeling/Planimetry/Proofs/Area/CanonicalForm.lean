import Planimetry.Proofs.Area.Independence

/-! Expanded forms decide equality: two plain expressions have the same one exactly if they have the same value
for all values of the quantities, and the expression of a form expands to that form again. -/

namespace Planimetry.Area

variable {ν : Quantity → ℚ} {P : Quantity → Prop} {e : Expr}

namespace Expansion

variable {f : Factors} {t : Factors × ℚ} {ts : List (Factors × ℚ)} {s : Expansion}

/-! ### The expression of a form -/

theorem valueAt_product (ν : Quantity → ℚ) (e : Expr) (f : Factors) :
    (product e f).valueAt ν = e.valueAt ν * (f.map ν).prod := by
  induction f generalizing e with
  | nil => exact (mul_one (e.valueAt ν)).symm
  | cons q f ih =>
      rw [List.map_cons, List.prod_cons]
      exact congr_arg (e.valueAt ν * ·) (ih (.atom q))

theorem valueAt_termExpr (ν : Quantity → ℚ) (t : Factors × ℚ) :
    (termExpr t).valueAt ν = termValue ν t.1 t.2 := by
  obtain ⟨f, c⟩ := t
  cases f with
  | nil => exact (mul_one c).symm
  | cons q f =>
      unfold termExpr
      dsimp only
      split
      next hone =>
        rw [valueAt_product, hone]
        exact (one_mul _).symm
      next => exact valueAt_product ν (.number c) (q :: f)

theorem valueAt_sumExpr (ν : Quantity → ℚ) (e : Expr) (ts : List (Factors × ℚ)) :
    (sumExpr e ts).valueAt ν = e.valueAt ν + (ts.map fun t => termValue ν t.1 t.2).sum := by
  induction ts generalizing e with
  | nil => exact (add_zero (e.valueAt ν)).symm
  | cons t ts ih =>
      rw [List.map_cons, List.sum_cons, ← valueAt_termExpr]
      exact congr_arg (e.valueAt ν + ·) (ih (termExpr t))

theorem valueAt_expression (ν : Quantity → ℚ) (s : Expansion) : s.expression.valueAt ν = s.valueAt ν := by
  unfold expression valueAt Sparse.total
  split
  next h => rw [h]; rfl
  next t ts h =>
    rw [h, valueAt_sumExpr, valueAt_termExpr]
    rfl

theorem isPlain_product (he : e.IsPlain P) (hf : ∀ q ∈ f, P q) : (product e f).IsPlain P := by
  induction f generalizing e with
  | nil => exact he
  | cons q f ih =>
      obtain ⟨hq, hf⟩ := List.forall_mem_cons.1 hf
      exact ⟨he, ih hq hf⟩

theorem isPlain_termExpr (ht : ∀ q ∈ t.1, P q) : (termExpr t).IsPlain P := by
  obtain ⟨f, c⟩ := t
  cases f with
  | nil => trivial
  | cons q f =>
      unfold termExpr
      dsimp only
      split
      next =>
        obtain ⟨hq, hf⟩ := List.forall_mem_cons.1 ht
        exact isPlain_product hq hf
      next => exact isPlain_product trivial ht

theorem isPlain_sumExpr (he : e.IsPlain P) (hts : ∀ t ∈ ts, ∀ q ∈ t.1, P q) : (sumExpr e ts).IsPlain P := by
  induction ts generalizing e with
  | nil => exact he
  | cons t ts ih =>
      obtain ⟨ht, hts⟩ := List.forall_mem_cons.1 hts
      exact ⟨he, ih (isPlain_termExpr ht) hts⟩

theorem isPlain_expression (hs : ∀ t ∈ s.entries, ∀ q ∈ t.1, P q) : s.expression.IsPlain P := by
  unfold expression
  split
  next => trivial
  next t ts h =>
    rw [h] at hs
    obtain ⟨ht, hts⟩ := List.forall_mem_cons.1 hs
    exact isPlain_sumExpr (isPlain_termExpr ht) hts

/-- The expression of a canonical form expands to that form: what it expands to is canonical and has the same
values. -/
theorem IsCanonical.expand_expression (hs : s.IsCanonical) : s.expression.expand = .ok s := by
  have hplain : s.expression.IsPlain Quantity.IsRegular :=
    isPlain_expression fun t ht q hq => ((hs t ht).quantities q hq).isRegular
  obtain ⟨s', hs'⟩ := hplain.exists_expand
  have heq : s' = s := by
    apply (Expr.isCanonical_expand hs').eq_of_valueAt hs
    intro ν hν
    rw [hplain.valueAt_expand hν hs', valueAt_expression]
  rw [hs', heq]

end Expansion

namespace Expr

variable {e₁ e₂ : Expr} {s₁ s₂ : Expansion}

/-- Plain expressions have the same expanded form exactly if they have the same values. -/
theorem expand_eq_iff (he₁ : e₁.IsPlain P) (he₂ : e₂.IsPlain P) (h₁ : e₁.expand = .ok s₁)
    (h₂ : e₂.expand = .ok s₂) :
    s₁ = s₂ ↔ ∀ ν, RespectsOrientation ν → e₁.valueAt ν = e₂.valueAt ν := by
  constructor
  · rintro rfl ν hν
    rw [← he₁.valueAt_expand hν h₁, he₂.valueAt_expand hν h₂]
  · intro h
    apply (isCanonical_expand h₁).eq_of_valueAt (isCanonical_expand h₂)
    intro ν hν
    rw [he₁.valueAt_expand hν h₁, he₂.valueAt_expand hν h₂]
    exact h ν hν

/-- The expanded form of plain expressions without ratios to empty segments is complete: it exists, and is the same
for two of them exactly if they have the same value for all values of the quantities. Whatever an expression
expands to has canonical quantities in ascending products, these in strictly ascending order and with coefficients
other than zero, and is what its own expression expands to. -/
theorem canonical_expand :
    (∀ e₁ e₂ : Expr, e₁.IsPlain Quantity.IsRegular → e₂.IsPlain Quantity.IsRegular →
      ∃ s₁ s₂, e₁.expand = .ok s₁ ∧ e₂.expand = .ok s₂ ∧
        (s₁ = s₂ ↔ ∀ ν, RespectsOrientation ν → e₁.valueAt ν = e₂.valueAt ν)) ∧
    ∀ (e : Expr) (s : Expansion), e.expand = .ok s →
      (∀ t ∈ s.entries, t.2 ≠ 0) ∧ s.IsCanonical ∧
        s.entries.Pairwise (fun t u => compare t.1 u.1 = .lt) ∧ s.expression.expand = .ok s := by
  constructor
  · intro e₁ e₂ he₁ he₂
    obtain ⟨s₁, h₁⟩ := he₁.exists_expand
    obtain ⟨s₂, h₂⟩ := he₂.exists_expand
    exact ⟨s₁, s₂, h₁, h₂, expand_eq_iff he₁ he₂ h₁ h₂⟩
  · intro e s h
    have hcanonical := isCanonical_expand h
    exact ⟨s.nonzero, hcanonical, s.ascending, hcanonical.expand_expression⟩

end Expr

/-- A product of a difference, and another product with one of its areas under other labels. -/
def mixedProducts : Expr :=
  .add (.mul (.sub (.atom (.area "A" "B" "C")) (.atom (.area "A" "B" "D"))) (.atom (.pythagoras "A" "B" "C")))
    (.mul (.atom (.pythagoras "A" "B" "C")) (.atom (.area "B" "D" "A")))

/-- What is left of the sum: one product, by a factor under other labels. -/
def mergedProduct : Expr := .mul (.atom (.pythagoras "C" "B" "A")) (.atom (.area "A" "B" "C"))

theorem canonical_mixedProducts :
    mixedProducts.IsPlain Quantity.IsRegular ∧ mergedProduct.IsPlain Quantity.IsRegular ∧
    ∃ s, mixedProducts.expand = .ok s ∧ mergedProduct.expand = .ok s ∧
      (∀ t ∈ s.entries, t.2 ≠ 0) ∧ s.IsCanonical ∧
        s.entries.Pairwise (fun t u => compare t.1 u.1 = .lt) ∧ s.expression.expand = .ok s := by
  have hmixed : mixedProducts.IsPlain Quantity.IsRegular := ⟨⟨⟨trivial, trivial⟩, trivial⟩, trivial, trivial⟩
  have hmerged : mergedProduct.IsPlain Quantity.IsRegular := ⟨trivial, trivial⟩
  obtain ⟨s₁, s₂, h₁, h₂, hiff⟩ := Expr.canonical_expand.1 mixedProducts mergedProduct hmixed hmerged
  have hvalue (ν : Quantity → ℚ) (hν : RespectsOrientation ν) :
      mixedProducts.valueAt ν = mergedProduct.valueAt ν := by
    have harea := hν.respectsSymmetry.area_rotate "A" "B" "D"
    have hpythagoras := hν.respectsSymmetry.pythagoras_swap "A" "B" "C"
    simp only [mixedProducts, mergedProduct, Expr.valueAt]
    rw [harea, hpythagoras]
    ring
  obtain rfl := hiff.2 hvalue
  exact ⟨hmixed, hmerged, s₁, h₁, h₂, Expr.canonical_expand.2 mixedProducts s₁ h₁⟩

end Planimetry.Area
