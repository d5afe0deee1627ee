import Mathlib.Algebra.Polynomial.AlgebraMap
import Mathlib.Algebra.Polynomial.BigOperators
import Planimetry.Polynomial.Division
import Planimetry.Proofs.Polynomial.Value

/-! Polynomials as polynomials in one variable, whose coefficients are polynomials in the others. -/

open scoped Polynomial

namespace Planimetry.Polynomial

/-- Reads one variable as the unknown, and all others as coefficients. -/
noncomputable def unknown (v : Variable) :
    MvPolynomial Variable ℚ →ₐ[ℚ] (MvPolynomial Variable ℚ)[X] :=
  MvPolynomial.aeval fun w => if w = v then Polynomial.X else Polynomial.C (MvPolynomial.X w)

/-- The polynomial in one variable. -/
noncomputable def inVariable (p : Polynomial) (v : Variable) : (MvPolynomial Variable ℚ)[X] :=
  unknown v p.toMv

theorem unknown_monomial (v : Variable) (e : Variable →₀ ℕ) (c : ℚ) :
    unknown v (MvPolynomial.monomial e c) =
      Polynomial.C (MvPolynomial.monomial (e.erase v) c) * Polynomial.X ^ e v := by
  have hsplit : MvPolynomial.monomial e c =
      MvPolynomial.monomial (e.erase v) c * MvPolynomial.X v ^ e v := by
    rw [MvPolynomial.X_pow_eq_monomial, MvPolynomial.monomial_mul, mul_one, Finsupp.erase_add_single]
  have hrest : unknown v (MvPolynomial.monomial (e.erase v) c) =
      Polynomial.C (MvPolynomial.monomial (e.erase v) c) := by
    rw [MvPolynomial.monomial_eq, map_mul, map_mul, Finsupp.prod, map_prod, map_prod]
    refine congr_arg₂ (· * ·) ?_ (Finset.prod_congr rfl fun w hw => ?_)
    · exact MvPolynomial.aeval_C _ _
    · have hne : w ≠ v := by
        rintro rfl
        simp at hw
      rw [map_pow, map_pow, unknown, MvPolynomial.aeval_X, if_neg hne]
  rw [hsplit, map_mul, map_pow, hrest, unknown, MvPolynomial.aeval_X, if_pos rfl]

section Value

variable {K : Type*} [CommRing K] [Algebra ℚ K] (σ : Variable → K)

/-- The polynomial in one variable once all others have values. -/
noncomputable def specialize (p : Polynomial) (v : Variable) : K[X] :=
  (p.inVariable v).map (MvPolynomial.aeval σ).toRingHom

/-- Giving the unknown a value changes the assignment there. -/
theorem eval_specialize (p : Polynomial) (v : Variable) (z : K) :
    (p.specialize σ v).eval z = valueAt (Function.update σ v z) p := by
  unfold specialize inVariable valueAt
  rw [Polynomial.eval_map]
  have hhom : ((Polynomial.eval₂RingHom (MvPolynomial.aeval σ).toRingHom z).comp
      (unknown v).toRingHom) = (MvPolynomial.aeval (Function.update σ v z)).toRingHom := by
    refine MvPolynomial.ringHom_ext (fun c => ?_) fun w => ?_
    · simp [unknown, MvPolynomial.algebraMap_eq]
    · by_cases h : w = v
      · simp [unknown, h]
      · simp [unknown, h]
  exact DFunLike.congr_fun hhom p.toMv

end Value

/-- The coefficients of the polynomial in one variable are those of the polynomial. -/
theorem coeff_inVariable (p : Polynomial) (v : Variable) (n : ℕ) :
    (p.inVariable v).coeff n = (p.coefficient v n).toMv := by
  unfold inVariable coefficient
  rw [toMv_ofList]
  unfold toMv Sparse.total
  rw [map_list_sum, ← Polynomial.lcoeff_apply, map_list_sum]
  induction p.entries with
  | nil => rfl
  | cons t ts ih =>
      rw [List.map_cons, List.map_cons, List.map_cons, List.sum_cons, ih, unknown_monomial,
        Polynomial.lcoeff_apply, Polynomial.coeff_C_mul_X_pow, Monomial.exponents_apply]
      by_cases h : t.1.degree v = n
      · rw [if_pos h.symm, List.filter_cons_of_pos (by simpa using h), List.map_cons, List.map_cons,
          List.sum_cons, Monomial.exponents_without]
      · rw [if_neg (Ne.symm h), List.filter_cons_of_neg (by simpa using h), zero_add]

theorem exponents_eq_add_single {e f : Variable →₀ ℕ} {v : Variable} {n : ℕ} (he : e v = 0) :
    f = e + Finsupp.single v n ↔ f v = n ∧ f.erase v = e := by
  constructor
  · rintro rfl
    refine ⟨by simp [he], ?_⟩
    rw [Finsupp.erase_add, Finsupp.erase_single, add_zero, Finsupp.erase_of_notMem_support]
    simpa using he
  · rintro ⟨rfl, rfl⟩
    exact (Finsupp.erase_add_single v f).symm

theorem coeff_toMv_coefficient (p : Polynomial) (v : Variable) (n : ℕ) {e : Variable →₀ ℕ}
    (he : e v = 0) :
    (p.coefficient v n).toMv.coeff e = p.toMv.coeff (e + Finsupp.single v n) := by
  unfold coefficient
  rw [toMv_ofList]
  unfold toMv Sparse.total
  simp only [← MvPolynomial.coeffAddMonoidHom_apply, map_list_sum]
  induction p.entries with
  | nil => rfl
  | cons t ts ih =>
      simp only [List.map_cons, List.sum_cons, ← ih, MvPolynomial.coeffAddMonoidHom_apply,
        MvPolynomial.coeff_monomial, exponents_eq_add_single he, ← Monomial.exponents_without,
        Monomial.exponents_apply]
      by_cases h : t.1.degree v = n
      · simp [h, MvPolynomial.coeff_monomial]
      · simp [h]

theorem foldl_max_le {ts : List (Monomial × ℚ)} {v : Variable} {d n : ℕ} :
    ts.foldl (fun d t => max d (t.1.degree v)) d ≤ n ↔ d ≤ n ∧ ∀ t ∈ ts, t.1.degree v ≤ n := by
  induction ts generalizing d with
  | nil => simp
  | cons t ts ih =>
      rw [List.foldl_cons, ih, max_le_iff, List.forall_mem_cons]
      tauto

theorem degree_le {p : Polynomial} {v : Variable} {n : ℕ} :
    p.degree v ≤ n ↔ ∀ t ∈ p.entries, t.1.degree v ≤ n := by
  unfold degree
  rw [foldl_max_le]
  exact and_iff_right (Nat.zero_le n)

theorem degree_eq_zero {p : Polynomial} {v : Variable} : p.degree v = 0 ↔ v ∉ p.vars := by
  rw [← Nat.le_zero, degree_le, mem_vars]
  push Not
  refine forall₂_congr fun t _ => ?_
  rw [Monomial.exponents_apply, Nat.le_zero]

theorem degree_pos {p : Polynomial} {v : Variable} : 0 < p.degree v ↔ v ∈ p.vars := by
  rw [Nat.pos_iff_ne_zero, ne_eq, degree_eq_zero, not_not]

theorem exists_mem_degree {p : Polynomial} (h : p ≠ 0) (v : Variable) :
    ∃ t ∈ p.entries, t.1.degree v = p.degree v := by
  by_contra hnone
  push Not at hnone
  have hlt : ∀ t ∈ p.entries, t.1.degree v < p.degree v := fun t ht =>
    lt_of_le_of_ne (degree_le.1 le_rfl t ht) (hnone t ht)
  cases hd : p.degree v with
  | zero =>
      obtain ⟨t, ht⟩ := List.exists_mem_of_ne_nil p.entries fun hnil => h (Sparse.ext hnil)
      exact absurd (hlt t ht) (by omega)
  | succ d =>
      have hle : p.degree v ≤ d := degree_le.2 fun t ht => by
        have := hlt t ht
        omega
      omega

theorem initial_ne_zero {p : Polynomial} (h : p ≠ 0) (v : Variable) : p.initial v ≠ 0 := by
  obtain ⟨t, ht, hd⟩ := exists_mem_degree h v
  intro hz
  have hcoeff := coeff_ne_zero_of_mem ht
  have hsplit : t.1.exponents = t.1.exponents.erase v + Finsupp.single v (p.degree v) := by
    rw [← hd, ← Monomial.exponents_apply, Finsupp.erase_add_single]
  rw [hsplit, ← coeff_toMv_coefficient p v _ (Finsupp.erase_same)] at hcoeff
  apply hcoeff
  change (p.initial v).toMv.coeff _ = 0
  rw [hz, toMv_zero, MvPolynomial.coeff_zero]

theorem unknown_coefficient (p : Polynomial) (v : Variable) (n : ℕ) :
    unknown v (p.coefficient v n).toMv = Polynomial.C (p.coefficient v n).toMv := by
  unfold coefficient
  rw [toMv_ofList, List.map_map, map_list_sum, map_list_sum, List.map_map, List.map_map]
  refine congr_arg List.sum (List.map_congr_left fun t _ => ?_)
  simp only [Function.comp_apply, unknown_monomial, Monomial.exponents_without, Finsupp.erase_same,
    pow_zero, mul_one, Finsupp.erase_idem]

/-- The degree is that of the polynomial in one variable. -/
theorem natDegree_inVariable (p : Polynomial) (v : Variable) :
    (p.inVariable v).natDegree = p.degree v := by
  refine le_antisymm (Polynomial.natDegree_le_iff_coeff_eq_zero.2 fun n hn => ?_) ?_
  · rw [coeff_inVariable, toMv_eq_zero, coefficient, List.filter_eq_nil_iff.2]
    · rfl
    · intro t ht hd
      have hle := (degree_le (v := v)).1 le_rfl t ht
      have heq : t.1.degree v = n := by simpa using hd
      omega
  · by_cases h : p = 0
    · rw [h]
      exact Nat.zero_le _
    · refine Polynomial.le_natDegree_of_ne_zero ?_
      rw [coeff_inVariable]
      exact fun hz => initial_ne_zero h v (toMv_eq_zero.1 hz)

section Value

variable {K : Type*} [CommRing K] [Algebra ℚ K] (σ : Variable → K)

theorem coeff_specialize (p : Polynomial) (v : Variable) (n : ℕ) :
    (p.specialize σ v).coeff n = (p.coefficient v n).valueAt σ := by
  rw [specialize, Polynomial.coeff_map, coeff_inVariable]
  rfl

theorem valueAt_of_degree_eq_one {p : Polynomial} {v : Variable} (h : p.degree v = 1) :
    p.valueAt σ = (p.coefficient v 1).valueAt σ * σ v + (p.coefficient v 0).valueAt σ := by
  have hdegree : (p.specialize σ v).natDegree < 2 := by
    refine lt_of_le_of_lt Polynomial.natDegree_map_le ?_
    rw [natDegree_inVariable, h]
    omega
  have heval := eval_specialize σ p v (σ v)
  rw [Function.update_eq_self, Polynomial.eval_eq_sum_range' hdegree, Finset.sum_range_succ,
    Finset.sum_range_one, coeff_specialize, coeff_specialize, pow_zero, pow_one, mul_one] at heval
  rw [← heval, add_comm]

end Value

end Planimetry.Polynomial
