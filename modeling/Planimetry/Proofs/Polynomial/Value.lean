import Mathlib.Algebra.MvPolynomial.CommRing
import Planimetry.Proofs.Polynomial.Algebra

/-! Values of polynomials in algebras over the rational numbers, and the variables they depend on. -/

namespace Planimetry.Polynomial

section Value

variable {K : Type*} [CommRing K] [Algebra ℚ K] (σ : Variable → K)

/-- The value at an assignment in an algebra over the rational numbers. -/
noncomputable def valueAt (p : Polynomial) : K := MvPolynomial.aeval σ p.toMv

@[simp] theorem valueAt_zero : valueAt σ 0 = 0 := by simp [valueAt]

@[simp] theorem valueAt_one : valueAt σ 1 = 1 := by simp [valueAt]

@[simp] theorem valueAt_constant (c : ℚ) : valueAt σ (constant c) = algebraMap ℚ K c := by
  simp [valueAt]

@[simp] theorem valueAt_ofVariable (v : Variable) : valueAt σ (ofVariable v) = σ v := by
  simp [valueAt]

@[simp] theorem valueAt_add (p q : Polynomial) :
    valueAt σ (p + q) = valueAt σ p + valueAt σ q := by simp [valueAt]

@[simp] theorem valueAt_sub (p q : Polynomial) :
    valueAt σ (p - q) = valueAt σ p - valueAt σ q := by simp [valueAt]

@[simp] theorem valueAt_mul (p q : Polynomial) :
    valueAt σ (p * q) = valueAt σ p * valueAt σ q := by simp [valueAt]

@[simp] theorem valueAt_scale (c : ℚ) (p : Polynomial) :
    valueAt σ (p.scale c) = algebraMap ℚ K c * valueAt σ p := by simp [valueAt]

theorem valueAt_rename (f : Variable → Variable) (p : Polynomial) :
    valueAt σ (p.rename f) = valueAt (fun v => σ (f v)) p := by
  unfold valueAt
  rw [toMv_rename, MvPolynomial.aeval_rename]
  rfl

end Value

theorem eval_eq_prod (s : Variable → ℚ) (m : Monomial) :
    m.eval s = m.exponents.prod fun v e => s v ^ e := by
  rw [Monomial.eval_eq]
  unfold Monomial.exponents Sparse.total
  induction m.entries with
  | nil => rfl
  | cons t ts ih =>
      rw [List.foldr_cons, ih, List.map_cons, List.sum_cons, Finsupp.prod_add_index', 
        Finsupp.prod_single_index]
      · exact pow_zero _
      · exact fun v => pow_zero _
      · exact fun v => pow_add _

/-- Evaluation in the rational numbers is the value there. -/
theorem eval_eq_valueAt (s : Variable → ℚ) (p : Polynomial) : p.eval s = valueAt s p := by
  unfold eval valueAt toMv Sparse.total
  rw [map_list_sum, List.map_map]
  induction p.entries with
  | nil => rfl
  | cons t ts ih =>
      rw [List.foldr_cons, ih, List.map_cons, List.sum_cons, eval_eq_prod, Function.comp_apply,
        MvPolynomial.aeval_monomial]
      rfl

theorem exponents_foldl_mul (ts : List (Monomial × ℚ)) (m : Monomial) :
    (ts.foldl (fun m t => m * t.1) m).exponents =
      m.exponents + (ts.map fun t => t.1.exponents).sum := by
  induction ts generalizing m with
  | nil => simp
  | cons t ts ih => rw [List.foldl_cons, ih, Monomial.exponents_mul, List.map_cons,
      List.sum_cons, add_assoc]

theorem mem_vars {p : Polynomial} {v : Variable} :
    v ∈ p.vars ↔ ∃ t ∈ p.entries, t.1.exponents v ≠ 0 := by
  unfold vars support
  rw [Monomial.mem_vars, exponents_foldl_mul, Monomial.exponents_one, zero_add]
  induction p.entries with
  | nil => simp
  | cons t ts ih =>
      simp only [List.map_cons, List.sum_cons, Finsupp.add_apply, ne_eq, Nat.add_eq_zero_iff,
        List.exists_mem_cons_iff, ← ih]
      tauto

theorem mem_vars_toMv {p : Polynomial} {v : Variable} : v ∈ p.toMv.vars ↔ v ∈ p.vars := by
  rw [MvPolynomial.mem_vars_iff_mem_support, mem_vars]
  constructor
  · rintro ⟨e, he, hv⟩
    obtain ⟨t, ht, rfl⟩ := exists_mem_of_coeff_ne_zero (MvPolynomial.mem_support_iff.1 he)
    exact ⟨t, ht, Finsupp.mem_support_iff.1 hv⟩
  · rintro ⟨t, ht, hv⟩
    exact ⟨t.1.exponents, mem_support.2 ⟨t.2, ht⟩, Finsupp.mem_support_iff.2 hv⟩

theorem mem_vars_ofVariable {v w : Variable} : w ∈ (ofVariable v).vars ↔ w = v := by
  rw [← mem_vars_toMv, toMv_ofVariable, MvPolynomial.vars_X, Finset.mem_singleton]

theorem mem_vars_add {p q : Polynomial} {v : Variable} (h : v ∈ (p + q).vars) :
    v ∈ p.vars ∨ v ∈ q.vars := by
  rw [← mem_vars_toMv, toMv_add] at h
  rw [← mem_vars_toMv, ← mem_vars_toMv]
  exact Finset.mem_union.1 (MvPolynomial.vars_add_subset _ _ h)

theorem mem_vars_sub {p q : Polynomial} {v : Variable} (h : v ∈ (p - q).vars) :
    v ∈ p.vars ∨ v ∈ q.vars := by
  rw [← mem_vars_toMv, toMv_sub] at h
  rw [← mem_vars_toMv, ← mem_vars_toMv]
  exact Finset.mem_union.1 (MvPolynomial.vars_sub_subset _ h)

theorem mem_vars_mul {p q : Polynomial} {v : Variable} (h : v ∈ (p * q).vars) :
    v ∈ p.vars ∨ v ∈ q.vars := by
  rw [← mem_vars_toMv, toMv_mul] at h
  rw [← mem_vars_toMv, ← mem_vars_toMv]
  exact Finset.mem_union.1 (MvPolynomial.vars_mul _ _ h)

theorem mem_vars_rename {p : Polynomial} {f : Variable → Variable} {w : Variable}
    (h : w ∈ (p.rename f).vars) : ∃ v ∈ p.vars, f v = w := by
  rw [← mem_vars_toMv, toMv_rename] at h
  obtain ⟨v, hv, hw⟩ := Finset.mem_image.1 (MvPolynomial.vars_rename f p.toMv h)
  exact ⟨v, mem_vars_toMv.1 hv, hw⟩

/-- The terms of a coefficient are those of the polynomial with the power in question, without it: no two of them
have the same monomial left. -/
theorem perm_coefficient (p : Polynomial) (v : Variable) (n : ℕ) :
    (p.coefficient v n).entries.Perm
      ((p.entries.filter fun t => t.1.degree v = n).map fun t => (t.1.without v, t.2)) := by
  have hdegree {t : Monomial × ℚ} (ht : t ∈ p.entries.filter fun t => t.1.degree v = n) :
      t.1.degree v = n := of_decide_eq_true (List.mem_filter.1 ht).2
  refine perm_ofList ?_ ?_
  · rw [List.map_map]
    refine (p.nodup_entries.filter _).map_on fun s hs t ht h => ?_
    have hkey : s.1 = t.1 := Monomial.eq_of_without ((hdegree hs).trans (hdegree ht).symm) h
    exact List.inj_on_of_nodup_map p.nodup_keys (List.mem_filter.1 hs).1 (List.mem_filter.1 ht).1 hkey
  · rw [List.forall_mem_map]
    exact fun t ht => p.nonzero t (List.mem_filter.1 ht).1

/-- A variable of a coefficient occurs in a monomial next to the power to which it belongs. -/
theorem exists_mem_of_mem_vars_coefficient {p : Polynomial} {v w : Variable} {n : ℕ}
    (h : w ∈ (p.coefficient v n).vars) :
    ∃ t ∈ p.entries, t.1.exponents v = n ∧ t.1.exponents w ≠ 0 ∧ w ≠ v := by
  obtain ⟨e, he, hne⟩ := mem_vars.1 h
  obtain ⟨t, ht, rfl⟩ := List.mem_map.1 ((perm_coefficient p v n).mem_iff.1 he)
  obtain ⟨hmem, hn⟩ := List.mem_filter.1 ht
  rw [Monomial.exponents_without] at hne
  have hwv : w ≠ v := by
    rintro rfl
    exact hne Finsupp.erase_same
  rw [Finsupp.erase_ne hwv] at hne
  rw [decide_eq_true_iff, ← Monomial.exponents_apply] at hn
  exact ⟨t, hmem, hn, hne, hwv⟩

/-- A coefficient contains other variables of the polynomial only. -/
theorem mem_vars_coefficient {p : Polynomial} {v w : Variable} {n : ℕ}
    (h : w ∈ (p.coefficient v n).vars) : w ∈ p.vars ∧ w ≠ v := by
  obtain ⟨t, ht, -, hne, hwv⟩ := exists_mem_of_mem_vars_coefficient h
  exact ⟨mem_vars.2 ⟨t, ht, hne⟩, hwv⟩

/-- The value depends on the variables that occur only. -/
theorem valueAt_congr {K : Type*} [CommRing K] [Algebra ℚ K] {σ τ : Variable → K} {p : Polynomial}
    (h : ∀ v ∈ p.vars, σ v = τ v) : valueAt σ p = valueAt τ p := by
  unfold valueAt
  refine MvPolynomial.eval₂Hom_congr' rfl ?_ rfl
  intro v hv _
  exact h v (mem_vars_toMv.1 hv)

theorem valueAt_X (p : Polynomial) : p.valueAt (MvPolynomial.X (R := ℚ)) = p.toMv := by
  rw [valueAt, MvPolynomial.aeval_X_left_apply]

theorem rename_congr {f g : Variable → Variable} {p : Polynomial} (h : ∀ v ∈ p.vars, f v = g v) :
    p.rename f = p.rename g := by
  apply toMv_injective
  rw [← valueAt_X, ← valueAt_X, valueAt_rename, valueAt_rename]
  exact valueAt_congr fun v hv => congr_arg MvPolynomial.X (h v hv)

theorem rename_rename (f g : Variable → Variable) (p : Polynomial) :
    (p.rename f).rename g = p.rename fun v => g (f v) := by
  apply toMv_injective
  rw [toMv_rename, toMv_rename, toMv_rename, MvPolynomial.rename_rename]
  rfl

theorem rename_eq_self {f : Variable → Variable} {p : Polynomial} (h : ∀ v ∈ p.vars, f v = v) :
    p.rename f = p := by
  apply toMv_injective
  rw [← valueAt_X, ← valueAt_X, valueAt_rename]
  exact valueAt_congr fun v hv => congr_arg MvPolynomial.X (h v hv)

theorem rename_constant (f : Variable → Variable) (c : ℚ) : (constant c).rename f = constant c := by
  apply toMv_injective
  rw [toMv_rename, toMv_constant, MvPolynomial.rename_C]

theorem rename_ofVariable (f : Variable → Variable) (v : Variable) :
    (ofVariable v).rename f = ofVariable (f v) := by
  apply toMv_injective
  rw [toMv_rename, toMv_ofVariable, toMv_ofVariable, MvPolynomial.rename_X]

theorem rename_add (f : Variable → Variable) (p q : Polynomial) :
    (p + q).rename f = p.rename f + q.rename f := by
  apply toMv_injective
  simp only [toMv_rename, toMv_add, map_add]

theorem rename_mul (f : Variable → Variable) (p q : Polynomial) :
    (p * q).rename f = p.rename f * q.rename f := by
  apply toMv_injective
  simp only [toMv_rename, toMv_mul, map_mul]

theorem rename_injective {f : Variable → Variable} (hf : Function.Injective f) :
    Function.Injective (rename f) := by
  intro p q h
  apply toMv_injective
  apply MvPolynomial.rename_injective f hf
  rw [← toMv_rename, ← toMv_rename, h]

theorem isZero_rename {f : Variable → Variable} (hf : Function.Injective f) (p : Polynomial) :
    (p.rename f).isZero = p.isZero := by
  rw [Bool.eq_iff_iff, Sparse.isZero_iff, Sparse.isZero_iff]
  exact (rename_injective hf).eq_iff' rfl

theorem isConstant_iff {p : Polynomial} : p.isConstant = true ↔ p.vars = [] := by
  unfold isConstant
  rw [List.all_eq_true, List.eq_nil_iff_forall_not_mem]
  constructor
  · intro h v hv
    obtain ⟨t, ht, hne⟩ := mem_vars.1 hv
    rw [Monomial.isOne_iff.1 (h t ht)] at hne
    exact hne rfl
  · intro h t ht
    rw [Monomial.isOne_iff]
    refine Monomial.exponents_injective (Finsupp.ext fun v => ?_)
    by_contra hne
    exact h v (mem_vars.2 ⟨t, ht, hne⟩)

theorem eq_constant_of_isConstant {p : Polynomial} (h : p.isConstant = true) :
    ∃ c, p = constant c := by
  have hvars : p.toMv.vars = ∅ := by
    refine Finset.eq_empty_of_forall_notMem fun v hv => ?_
    have hmem := mem_vars_toMv.1 hv
    rw [isConstant_iff.1 h] at hmem
    cases hmem
  refine ⟨p.toMv.coeff 0, toMv_injective ?_⟩
  rw [toMv_constant]
  exact (MvPolynomial.vars_eq_empty_iff_eq_C).1 hvars

theorem isConstant_constant (c : ℚ) : (constant c).isConstant = true := by
  rw [isConstant_iff, List.eq_nil_iff_forall_not_mem]
  intro v hv
  rw [← mem_vars_toMv, toMv_constant, MvPolynomial.vars_C] at hv
  exact absurd hv (Finset.notMem_empty v)

theorem isConstant_rename {f : Variable → Variable} (hf : Function.Injective f) (p : Polynomial) :
    (p.rename f).isConstant = p.isConstant := by
  rw [Bool.eq_iff_iff]
  constructor
  · intro h
    obtain ⟨c, hc⟩ := eq_constant_of_isConstant h
    rw [← rename_constant f c] at hc
    exact rename_injective hf hc ▸ isConstant_constant c
  · intro h
    obtain ⟨c, rfl⟩ := eq_constant_of_isConstant h
    exact (rename_constant f c).symm ▸ isConstant_constant c

/-- A constant that is not zero vanishes nowhere. -/
theorem valueAt_ne_zero_of_isConstant {K : Type*} [Field K] [Algebra ℚ K] (σ : Variable → K)
    {p : Polynomial} (h : p.isConstant = true) (hp : p ≠ 0) : valueAt σ p ≠ 0 := by
  obtain ⟨c, rfl⟩ := eq_constant_of_isConstant h
  rw [valueAt_constant]
  intro hc
  rw [map_eq_zero] at hc
  apply hp
  rw [hc]
  rfl

/-- Proportional polynomials that are not both zero vanish together. -/
theorem valueAt_eq_zero_of_isProportional {K : Type*} [Field K] [Algebra ℚ K] {σ : Variable → K}
    {p q : Polynomial} (h : p.isProportional q = true) (hq : q ≠ 0) (hz : valueAt σ q = 0) :
    valueAt σ p = 0 := by
  unfold isProportional at h
  rw [Bool.and_eq_true, beq_iff_eq, beq_iff_eq] at h
  rw [h.2, valueAt_scale, mul_eq_zero, map_eq_zero] at hz
  refine hz.resolve_left fun hc => hq ?_
  rw [h.2, hc]
  unfold scale
  exact dif_pos rfl

end Planimetry.Polynomial
