import Mathlib.Algebra.MvPolynomial.NoZeroDivisors
import Planimetry.Polynomial.Checked
import Planimetry.Proofs.Polynomial.Evaluation
import Planimetry.Proofs.Triangular.Termination

/-! The pseudo-remainder by itself: the identity that ties it to dividend and divisor, its degree in each
variable, and when it is zero. -/

namespace Planimetry.Polynomial

variable {f g p q r : Polynomial} {v w : Variable} {n : ℕ}

/-! ### Degrees in one of the variables -/

theorem degree_eq_degreeOf (p : Polynomial) (v : Variable) : p.degree v = p.toMv.degreeOf v := by
  refine le_antisymm (degree_le.2 fun t ht => ?_) (MvPolynomial.degreeOf_le_iff.2 fun e he => ?_)
  · rw [← Monomial.exponents_apply]
    exact MvPolynomial.monomial_le_degreeOf v
      (MvPolynomial.mem_support_iff.2 (coeff_ne_zero_of_mem ht))
  · obtain ⟨t, ht, rfl⟩ := exists_mem_of_coeff_ne_zero (MvPolynomial.mem_support_iff.1 he)
    rw [Monomial.exponents_apply]
    exact degree_le.1 le_rfl t ht

instance : NoZeroDivisors Polynomial :=
  toMv_injective.noZeroDivisors toMv toMv_zero toMv_mul

theorem degree_mul (hp : p ≠ 0) (hq : q ≠ 0) (v : Variable) :
    (p * q).degree v = p.degree v + q.degree v := by
  rw [degree_eq_degreeOf, toMv_mul, MvPolynomial.degreeOf_mul_eq (toMv_eq_zero.not.2 hp)
    (toMv_eq_zero.not.2 hq), ← degree_eq_degreeOf, ← degree_eq_degreeOf]

theorem degree_mul_le (p q : Polynomial) (v : Variable) :
    (p * q).degree v ≤ p.degree v + q.degree v := by
  rw [degree_eq_degreeOf, degree_eq_degreeOf, degree_eq_degreeOf, toMv_mul]
  exact MvPolynomial.degreeOf_mul_le _ _ _

theorem degree_sub_le (p q : Polynomial) (v : Variable) :
    (p - q).degree v ≤ max (p.degree v) (q.degree v) := by
  rw [degree_eq_degreeOf, degree_eq_degreeOf, degree_eq_degreeOf, toMv_sub]
  exact MvPolynomial.degreeOf_sub_le _ _ _

theorem degree_mulTerm_power (h : w ≠ v) (p : Polynomial) (n : ℕ) :
    (p.mulTerm (Monomial.power v n) 1).degree w = p.degree w := by
  rw [degree_eq_degreeOf, degree_eq_degreeOf, toMv_mulTerm, Monomial.exponents_power,
    ← MvPolynomial.X_pow_eq_monomial, MvPolynomial.degreeOf_mul_X_pow_of_ne _ h]

theorem degree_coefficient_le (h : w ≠ v) (p : Polynomial) (n : ℕ) :
    (p.coefficient v n).degree w ≤ p.degree w := by
  rw [degree_eq_degreeOf, degree_eq_degreeOf]
  refine MvPolynomial.degreeOf_le_iff.2 fun e he => ?_
  have hv : e v = 0 := by
    by_contra hne
    exact (mem_vars_coefficient (mem_vars_toMv.1
      ((MvPolynomial.mem_vars_iff_mem_support v).2 ⟨e, he, Finsupp.mem_support_iff.2 hne⟩))).2 rfl
  rw [MvPolynomial.mem_support_iff, coeff_toMv_coefficient p v n hv] at he
  have hle := MvPolynomial.monomial_le_degreeOf w (MvPolynomial.mem_support_iff.2 he)
  rwa [Finsupp.add_apply, Finsupp.single_eq_of_ne h, add_zero] at hle

/-! ### Powers of the initial -/

theorem degree_initial_pow (g : Polynomial) (v : Variable) (n : ℕ) : (g.initial v ^ n).degree v = 0 :=
  degree_eq_zero.2 fun hmem => (mem_vars_coefficient (mem_vars_pow hmem)).2 rfl

theorem initial_pow_ne_zero (hg : g ≠ 0) (v : Variable) (n : ℕ) : g.initial v ^ n ≠ 0 := by
  rw [ne_eq, ← toMv_eq_zero, toMv_pow]
  exact pow_ne_zero n (toMv_eq_zero.not.2 (initial_ne_zero hg v))

/-- A polynomial whose product with a power of the initial is a multiple is zero, or not of lower
degree. -/
theorem eq_zero_of_initial_pow_mul (hr : r.degree v < g.degree v) (h : g.initial v ^ n * r = q * g) :
    r = 0 := by
  have hg : g ≠ 0 := by
    rintro rfl
    exact Nat.not_lt_zero _ hr
  by_contra hne
  have hpow := initial_pow_ne_zero hg v n
  have hq : q ≠ 0 := by
    rintro rfl
    have hzero : g.initial v ^ n * r = 0 := h.trans (toMv_injective (by simp))
    exact mul_ne_zero hpow hne hzero
  have hdegree := congr_arg (fun p => p.degree v) h
  simp only [degree_mul hpow hne, degree_mul hq hg, degree_initial_pow] at hdegree
  omega

/-! ### The remainder -/

/-- A divisor leaves the degree in a variable alone that it does not contain. -/
theorem degree_reduceOnce_le (hw : w ∉ g.vars) (hwv : w ≠ v) (r : Polynomial) :
    (reduceOnce g v r).degree w ≤ r.degree w := by
  have hg : g.degree w = 0 := degree_eq_zero.2 hw
  have hinitial : (g.initial v).degree w ≤ g.degree w := degree_coefficient_le hwv g _
  have hr : (r.initial v).degree w ≤ r.degree w := degree_coefficient_le hwv r _
  have hleft := degree_mul_le r (g.initial v) w
  have hright := degree_mul_le (r.initial v) g w
  refine (degree_sub_le _ _ w).trans (max_le (by omega) ?_)
  rw [degree_mulTerm_power hwv]
  omega

theorem degree_reduceWhile_le (hw : w ∉ g.vars) (hwv : w ≠ v) (n : ℕ) (r : Polynomial) :
    (reduceWhile g v n r).degree w ≤ r.degree w := by
  induction n generalizing r with
  | zero => exact le_rfl
  | succ n ih =>
      unfold reduceWhile
      split
      · exact le_rfl
      · exact (ih _).trans (degree_reduceOnce_le hw hwv r)

theorem degree_pseudoRemainder_le (hw : w ∉ g.vars) (hg : 0 < g.degree v) (f : Polynomial) :
    (f.pseudoRemainder g v).degree w ≤ f.degree w :=
  degree_reduceWhile_le hw (fun h => hw (h ▸ degree_pos.1 hg)) _ f

/-- The remainder is zero exactly if the dividend times a power of the initial is a multiple of the
divisor. -/
theorem pseudoRemainder_eq_zero (hg : 0 < g.degree v) :
    f.pseudoRemainder g v = 0 ↔ ∃ (m : ℕ) (q : Polynomial), g.initial v ^ m * f = q * g := by
  obtain ⟨k, q, -, hk⟩ := exists_initial_pow_mul_eq_reduceWhile g v (f.degree v + 1 - g.degree v) f
  change g.initial v ^ k * f = q * g + f.pseudoRemainder g v at hk
  constructor
  · intro hzero
    refine ⟨k, q, hk.trans (toMv_injective ?_)⟩
    rw [hzero, toMv_add, toMv_zero, add_zero]
  · rintro ⟨m, q', hm⟩
    -- Both identities, each times the power of the initial in the other.
    have hmultiple : g.initial v ^ m * f.pseudoRemainder g v =
        (g.initial v ^ k * q' - g.initial v ^ m * q) * g := by
      apply toMv_injective
      have hk := congr_arg toMv hk
      have hm := congr_arg toMv hm
      simp only [toMv_mul, toMv_add, toMv_sub, toMv_pow] at hk hm ⊢
      linear_combination (g.initial v).toMv ^ k * hm - (g.initial v).toMv ^ m * hk
    exact eq_zero_of_initial_pow_mul (degree_pseudoRemainder_lt hg f) hmultiple

/-- What is left of a dividend: the loop of pseudo-division ends there, with a degree below that of the
divisor; up to at most as many initials as degrees to go, it differs from the dividend by a multiple
of the divisor; and it is zero if a power of the initial makes the dividend a multiple, and only then. -/
structure IsRemainder (f g : Polynomial) (v : Variable) (r : Polynomial) : Prop where
  reduces : Reduces g v f r
  identity : ∃ (k : ℕ) (q : Polynomial), k ≤ f.degree v + 1 - g.degree v ∧
    g.initial v ^ k * f = q * g + r
  degree : r.degree v < g.degree v
  zero : r = 0 ↔ ∃ (m : ℕ) (q : Polynomial), g.initial v ^ m * f = q * g

theorem isRemainder_pseudoRemainder (hg : 0 < g.degree v) (f : Polynomial) :
    IsRemainder f g v (f.pseudoRemainder g v) :=
  { reduces := (reduces_iff hg).2 rfl
    identity := exists_initial_pow_mul_eq_reduceWhile g v _ f
    degree := degree_pseudoRemainder_lt hg f
    zero := pseudoRemainder_eq_zero hg }

/-- Only a divisor without the variable is refused, and each other divisor gives a remainder. -/
theorem remainder_cases (f g : Polynomial) (v : Variable) :
    g.degree v = 0 ∧ f.remainder g v = .error (.withoutVariable v) ∨
      0 < g.degree v ∧ ∃ r, f.remainder g v = .ok r ∧ IsRemainder f g v r := by
  unfold remainder
  split
  next hzero => exact .inl ⟨hzero, rfl⟩
  next hne =>
    have hpos := Nat.pos_of_ne_zero hne
    exact .inr ⟨hpos, _, rfl, isRemainder_pseudoRemainder hpos f⟩

end Planimetry.Polynomial
