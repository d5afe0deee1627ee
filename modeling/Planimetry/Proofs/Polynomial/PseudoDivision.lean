import Mathlib.Tactic.LinearCombination
import Planimetry.Proofs.Polynomial.Univariate

/-! Pseudo-division: what the remainder has to do with the dividend, its degree and its variables. -/

open scoped Polynomial

namespace Planimetry.Polynomial

variable {f g r : Polynomial} {v w : Variable}

theorem toMv_reduceOnce (g : Polynomial) (v : Variable) (r : Polynomial) :
    (reduceOnce g v r).toMv = r.toMv * (g.initial v).toMv -
      (r.initial v).toMv * g.toMv * MvPolynomial.X v ^ (r.degree v - g.degree v) := by
  unfold reduceOnce
  rw [toMv_sub, toMv_mul, toMv_mulTerm, toMv_mul, Monomial.exponents_power,
    MvPolynomial.X_pow_eq_monomial]

theorem inVariable_reduceOnce (g : Polynomial) (v : Variable) (r : Polynomial) :
    (reduceOnce g v r).inVariable v =
      r.inVariable v * Polynomial.C (g.initial v).toMv -
        Polynomial.C (r.initial v).toMv * g.inVariable v *
          Polynomial.X ^ (r.degree v - g.degree v) := by
  have hX : unknown v (MvPolynomial.X v) = Polynomial.X := by simp [unknown]
  unfold inVariable
  rw [toMv_reduceOnce, map_sub, map_mul, map_mul, map_mul, map_pow, hX, initial, initial,
    unknown_coefficient, unknown_coefficient]

theorem natDegree_lt_of_coeff_eq_zero {R : Type*} [Semiring R] {p : R[X]} {n : ℕ}
    (hle : p.natDegree ≤ n) (hn : p.coeff n = 0) (hpos : 0 < n) : p.natDegree < n := by
  refine lt_of_le_of_ne hle fun heq => ?_
  rw [← heq, Polynomial.coeff_natDegree, Polynomial.leadingCoeff_eq_zero] at hn
  rw [hn, Polynomial.natDegree_zero] at heq
  omega

/-- A round of reduction lowers the degree. -/
theorem degree_reduceOnce_lt (hg : 0 < g.degree v) (hr : g.degree v ≤ r.degree v) :
    (reduceOnce g v r).degree v < r.degree v := by
  rw [← natDegree_inVariable, inVariable_reduceOnce]
  have hrv := natDegree_inVariable r v
  have hgv := natDegree_inVariable g v
  have hleft : (r.inVariable v * Polynomial.C (g.initial v).toMv).natDegree ≤ r.degree v :=
    Polynomial.natDegree_mul_C_le _ _ |>.trans hrv.le
  have hshift : r.degree v - g.degree v + g.degree v = r.degree v := Nat.sub_add_cancel hr
  have hright : (Polynomial.C (r.initial v).toMv * g.inVariable v *
      Polynomial.X ^ (r.degree v - g.degree v)).natDegree ≤ r.degree v := by
    refine (Polynomial.natDegree_mul_le).trans ?_
    have hC := Polynomial.natDegree_C_mul_le (r.initial v).toMv (g.inVariable v)
    have hX := Polynomial.natDegree_X_pow_le (R := MvPolynomial Variable ℚ)
      (r.degree v - g.degree v)
    omega
  have htop : (r.inVariable v * Polynomial.C (g.initial v).toMv -
      Polynomial.C (r.initial v).toMv * g.inVariable v *
        Polynomial.X ^ (r.degree v - g.degree v)).coeff (r.degree v) = 0 := by
    have hcoeff := Polynomial.coeff_mul_X_pow (Polynomial.C (r.initial v).toMv * g.inVariable v)
      (r.degree v - g.degree v) (g.degree v)
    rw [Nat.add_comm, hshift] at hcoeff
    rw [Polynomial.coeff_sub, Polynomial.coeff_mul_C, hcoeff, Polynomial.coeff_C_mul,
      coeff_inVariable, coeff_inVariable]
    exact sub_self _
  have hle := Polynomial.natDegree_sub_le_of_le hleft hright
  rw [max_self] at hle
  exact natDegree_lt_of_coeff_eq_zero hle htop (hg.trans_le hr)

/-- Up to a power of the initial, one for each round at most, the dividend differs from the remainder by
a multiple of the divisor. -/
theorem exists_initial_pow_mul_eq_reduceWhile (g : Polynomial) (v : Variable) (n : ℕ)
    (r : Polynomial) :
    ∃ (k : ℕ) (q : Polynomial), k ≤ n ∧ g.initial v ^ k * r = q * g + reduceWhile g v n r := by
  induction n generalizing r with
  | zero =>
      refine ⟨0, 0, le_rfl, toMv_injective ?_⟩
      simp [reduceWhile]
  | succ n ih =>
      unfold reduceWhile
      split
      next =>
        refine ⟨0, 0, Nat.zero_le _, toMv_injective ?_⟩
        simp
      next =>
        obtain ⟨k, q, hk, h⟩ := ih (reduceOnce g v r)
        refine ⟨k + 1, q + (g.initial v ^ k * r.initial v) * ofVariable v ^ (r.degree v - g.degree v),
          Nat.succ_le_succ hk, toMv_injective ?_⟩
        have hring := congr_arg toMv h
        simp only [toMv_mul, toMv_add, toMv_pow, toMv_ofVariable, toMv_reduceOnce] at hring ⊢
        linear_combination hring

theorem degree_reduceWhile_lt (hg : 0 < g.degree v) (n : ℕ) (r : Polynomial)
    (hn : r.degree v < n + g.degree v) : (reduceWhile g v n r).degree v < g.degree v := by
  induction n generalizing r with
  | zero => simpa only [reduceWhile, zero_add] using hn
  | succ n ih =>
      unfold reduceWhile
      split
      next h => exact h
      next h =>
        refine ih _ ?_
        have hlt := degree_reduceOnce_lt hg (Nat.le_of_not_lt h)
        omega

/-- The pseudo-remainder has a lower degree than the divisor. -/
theorem degree_pseudoRemainder_lt (hg : 0 < g.degree v) (f : Polynomial) :
    (f.pseudoRemainder g v).degree v < g.degree v := by
  refine degree_reduceWhile_lt hg _ _ ?_
  omega

theorem mem_vars_reduceOnce (h : w ∈ (reduceOnce g v r).vars) (hr : g.degree v ≤ r.degree v)
    (hg : 0 < g.degree v) : w ∈ r.vars ∨ w ∈ g.vars := by
  rcases mem_vars_sub h with h | h
  · exact (mem_vars_mul h).imp_right fun h => (mem_vars_coefficient h).1
  · rw [← mem_vars_toMv, toMv_mulTerm] at h
    rcases Finset.mem_union.1 (MvPolynomial.vars_mul _ _ h) with h | h
    · rcases mem_vars_mul (mem_vars_toMv.1 h) with h | h
      · exact .inl (mem_vars_coefficient h).1
      · exact .inr h
    · have hwv : w = v := by
        rw [Monomial.exponents_power, ← MvPolynomial.X_pow_eq_monomial] at h
        exact Finset.mem_singleton.1 (MvPolynomial.vars_X (R := ℚ) ▸ MvPolynomial.vars_pow _ _ h)
      subst hwv
      exact .inr (degree_pos.1 hg)

theorem mem_vars_reduceWhile (hg : 0 < g.degree v) (n : ℕ) (r : Polynomial)
    (h : w ∈ (reduceWhile g v n r).vars) : w ∈ r.vars ∨ w ∈ g.vars := by
  induction n generalizing r with
  | zero => exact .inl h
  | succ n ih =>
      unfold reduceWhile at h
      split at h
      next => exact .inl h
      next hle =>
        rcases ih _ h with h | h
        · exact mem_vars_reduceOnce h (Nat.le_of_not_lt hle) hg
        · exact .inr h

/-- The pseudo-remainder contains no other variables than dividend and divisor. -/
theorem mem_vars_pseudoRemainder (hg : 0 < g.degree v) (h : w ∈ (f.pseudoRemainder g v).vars) :
    w ∈ f.vars ∨ w ∈ g.vars :=
  mem_vars_reduceWhile hg _ f h

/-- A dividend times a power of the initial has the value of the remainder where the divisor
vanishes. -/
theorem exists_initial_pow_mul_valueAt {K : Type*} [CommRing K] [Algebra ℚ K] (σ : Variable → K)
    (f g : Polynomial) (v : Variable) (hg : valueAt σ g = 0) :
    ∃ k : ℕ, valueAt σ (g.initial v) ^ k * valueAt σ f = valueAt σ (f.pseudoRemainder g v) := by
  obtain ⟨k, q, -, h⟩ := exists_initial_pow_mul_eq_reduceWhile g v (f.degree v + 1 - g.degree v) f
  have hσ := congr_arg (valueAt σ) h
  rw [valueAt_mul, valueAt_add, valueAt_mul, hg, mul_zero, zero_add, valueAt, toMv_pow, map_pow] at hσ
  exact ⟨k, hσ⟩

end Planimetry.Polynomial
