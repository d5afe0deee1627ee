import Planimetry.Proofs.Polynomial.Evaluation

/-! Proportional polynomials: the test compares leading coefficients, and tells exactly whether one polynomial
is a nonzero multiple of the other. -/

namespace Planimetry.Polynomial

variable {p q r : Polynomial} {c k : ℚ}

/-! ### Multiples -/

theorem entries_scale (hc : c ≠ 0) (p : Polynomial) :
    (p.scale c).entries = p.entries.map fun t => (t.1, c * t.2) := by
  unfold scale
  rw [dif_neg hc]

theorem keys_scale (hc : c ≠ 0) (p : Polynomial) : (p.scale c).keys = p.keys := by
  unfold Sparse.keys
  rw [entries_scale hc, List.map_map]
  rfl

theorem size_scale (hc : c ≠ 0) (p : Polynomial) : (p.scale c).size = p.size := by
  unfold Sparse.size
  rw [entries_scale hc, List.length_map]

theorem get_scale (c : ℚ) (p : Polynomial) (m : Monomial) : (p.scale c).get m = c * p.get m := by
  rw [← coeff_toMv, ← coeff_toMv, toMv_scale, MvPolynomial.coeff_C_mul]

theorem zero_scale (c : ℚ) : (0 : Polynomial).scale c = 0 := by
  refine Sparse.eq_of_get fun m => ?_
  rw [get_scale]
  exact mul_zero c

theorem scale_one (p : Polynomial) : p.scale 1 = p :=
  Sparse.eq_of_get fun m => by rw [get_scale, one_mul]

theorem scale_scale (c k : ℚ) (p : Polynomial) : (p.scale c).scale k = p.scale (k * c) :=
  Sparse.eq_of_get fun m => by rw [get_scale, get_scale, get_scale, mul_assoc]

theorem scale_inv_scale (hc : c ≠ 0) (p : Polynomial) : (p.scale c).scale c⁻¹ = p := by
  rw [scale_scale, inv_mul_cancel₀ hc, scale_one]

theorem get_ne_zero_iff {m : Monomial} : p.get m ≠ 0 ↔ m ∈ p.keys := by
  constructor
  · exact fun h => List.mem_map.2 ⟨_, Sparse.mem_of_get_ne_zero h, rfl⟩
  · intro h
    obtain ⟨t, ht, rfl⟩ := List.mem_map.1 h
    rw [Sparse.get_eq_of_mem (a := t.2) ht]
    exact p.nonzero t ht

theorem leadingCoefficient_scale (hc : c ≠ 0) (p : Polynomial) :
    (p.scale c).leadingCoefficient = c * p.leadingCoefficient := by
  unfold leadingCoefficient
  rw [entries_scale hc]
  cases p.entries with
  | nil => exact (mul_zero c).symm
  | cons t ts => rfl

theorem leadingCoefficient_ne_zero (hp : p ≠ 0) : p.leadingCoefficient ≠ 0 := by
  unfold leadingCoefficient
  cases hentries : p.entries with
  | nil => exact absurd (Sparse.ext hentries) hp
  | cons t ts => exact p.nonzero t (hentries ▸ List.mem_cons_self)

theorem eq_zero_iff_size : p = 0 ↔ p.size = 0 := by
  rw [← Sparse.isZero_iff]
  exact List.isEmpty_iff_length_eq_zero

/-! ### The test -/

theorem isProportional_scale (hk : k ≠ 0) (p : Polynomial) : p.isProportional (p.scale k) = true := by
  unfold isProportional
  rw [Bool.and_eq_true, beq_iff_eq, beq_iff_eq, size_scale hk, leadingCoefficient_scale hk]
  refine ⟨rfl, ?_⟩
  by_cases hp : p = 0
  · subst hp
    rw [zero_scale, zero_scale]
  · rw [mul_div_assoc, div_self (leadingCoefficient_ne_zero hp), mul_one]

/-- One polynomial is found to be proportional to the other if and only if it is a nonzero multiple of it. -/
theorem isProportional_iff_exists_scale : p.isProportional q = true ↔ ∃ k, k ≠ 0 ∧ q = p.scale k := by
  constructor
  · intro h
    unfold isProportional at h
    rw [Bool.and_eq_true, beq_iff_eq, beq_iff_eq] at h
    obtain ⟨hsize, hq⟩ := h
    by_cases hzero : p = 0
    · have hq0 : q = 0 := eq_zero_iff_size.2 (hsize ▸ eq_zero_iff_size.1 hzero)
      exact ⟨1, one_ne_zero, by rw [scale_one, hq0, hzero]⟩
    · have hq0 : q ≠ 0 := fun h => hzero (eq_zero_iff_size.2 (hsize.trans (eq_zero_iff_size.1 h)))
      exact ⟨_, div_ne_zero (leadingCoefficient_ne_zero hq0) (leadingCoefficient_ne_zero hzero), hq⟩
  · rintro ⟨k, hk, rfl⟩
    exact isProportional_scale hk p

theorem isProportional_refl (p : Polynomial) : p.isProportional p = true :=
  isProportional_iff_exists_scale.2 ⟨1, one_ne_zero, (scale_one p).symm⟩

theorem isProportional_symm (h : p.isProportional q = true) : q.isProportional p = true := by
  obtain ⟨k, hk, rfl⟩ := isProportional_iff_exists_scale.1 h
  exact isProportional_iff_exists_scale.2 ⟨k⁻¹, inv_ne_zero hk, (scale_inv_scale hk p).symm⟩

theorem isProportional_trans (h : p.isProportional q = true) (h' : q.isProportional r = true) :
    p.isProportional r = true := by
  obtain ⟨c, hc, rfl⟩ := isProportional_iff_exists_scale.1 h
  obtain ⟨k, hk, rfl⟩ := isProportional_iff_exists_scale.1 h'
  exact isProportional_iff_exists_scale.2 ⟨k * c, mul_ne_zero hk hc, scale_scale c k p⟩

theorem isProportional_zero_left : isProportional 0 p = true ↔ p = 0 := by
  rw [isProportional_iff_exists_scale]
  constructor
  · rintro ⟨k, -, rfl⟩
    exact zero_scale k
  · rintro rfl
    exact ⟨1, one_ne_zero, (zero_scale 1).symm⟩

/-- Where a polynomial vanishes, so do those proportional to it; they have values at the same assignments. -/
theorem eval?_eq_zero_of_isProportional {s : Variable → Option ℚ} (h : p.isProportional q = true)
    (hs : p.eval? s = some 0) : q.eval? s = some 0 := by
  obtain ⟨k, -, rfl⟩ := isProportional_iff_exists_scale.1 h
  rw [eval?_scale k hs, mul_zero]

/-- The coefficients of all terms relate to those of any one of them in the same way. -/
theorem isProportional_iff_forall_div {lead : Monomial} (hlead : lead ∈ p.keys) :
    p.isProportional q = true ↔
      q.keys = p.keys ∧ ∀ m ∈ p.keys, p.get m / p.get lead = q.get m / q.get lead := by
  rw [isProportional_iff_exists_scale]
  constructor
  · rintro ⟨k, hk, rfl⟩
    refine ⟨keys_scale hk p, fun m _ => ?_⟩
    rw [get_scale, get_scale, mul_div_mul_left _ _ hk]
  · rintro ⟨hkeys, hdiv⟩
    have hp : p.get lead ≠ 0 := get_ne_zero_iff.2 hlead
    have hq : q.get lead ≠ 0 := get_ne_zero_iff.2 (hkeys ▸ hlead)
    refine ⟨q.get lead / p.get lead, div_ne_zero hq hp, Sparse.eq_of_get fun m => ?_⟩
    rw [get_scale]
    by_cases hm : m ∈ p.keys
    · have hratio := hdiv m hm
      rw [div_eq_div_iff hp hq] at hratio
      rw [div_mul_eq_mul_div, eq_div_iff hp, ← hratio, mul_comm]
    · have hpm : p.get m = 0 := not_not.1 fun h => hm (get_ne_zero_iff.1 h)
      have hqm : q.get m = 0 := not_not.1 fun h => hm (hkeys ▸ get_ne_zero_iff.1 h)
      rw [hpm, hqm, mul_zero]

/-- What makes a test of two polynomials one of proportionality. -/
structure DecidesMultiples (test : Polynomial → Polynomial → Bool) : Prop where
  exists_scale : ∀ p q, test p q = true ↔ ∃ k, k ≠ 0 ∧ q = p.scale k
  equivalence : Equivalence fun p q => test p q = true
  zero_left : ∀ p, test 0 p = true ↔ p = 0
  zero_right : ∀ p, test p 0 = true ↔ p = 0
  zeros : ∀ p q, test p q = true → ∀ s, p.eval? s = some 0 ↔ q.eval? s = some 0
  forall_div : ∀ p q lead, lead ∈ p.keys → (test p q = true ↔
    q.keys = p.keys ∧ ∀ m ∈ p.keys, p.get m / p.get lead = q.get m / q.get lead)

/-- The test decides proportionality, and it does not matter which term it takes for the leading one. -/
theorem decidesMultiples_isProportional : DecidesMultiples isProportional :=
  { exists_scale := fun _ _ => isProportional_iff_exists_scale
    equivalence := ⟨isProportional_refl, isProportional_symm, isProportional_trans⟩
    zero_left := fun _ => isProportional_zero_left
    zero_right := fun _ => ⟨fun h => isProportional_zero_left.1 (isProportional_symm h),
      fun h => isProportional_symm (isProportional_zero_left.2 h)⟩
    zeros := fun _ _ h _ => ⟨eval?_eq_zero_of_isProportional h,
      eval?_eq_zero_of_isProportional (isProportional_symm h)⟩
    forall_div := fun _ _ _ => isProportional_iff_forall_div }

end Planimetry.Polynomial
