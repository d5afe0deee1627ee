import Mathlib.Algebra.MvPolynomial.Degrees
import Mathlib.Algebra.MvPolynomial.Rename
import Mathlib.Algebra.MvPolynomial.Variables
import Planimetry.Polynomial.Basic
import Planimetry.Proofs.Sparse

/-! Polynomials as elements of the polynomial ring over the rational numbers. -/

namespace Planimetry

namespace Monomial

/-- The exponent of each variable. -/
noncomputable def exponents (m : Monomial) : Variable →₀ ℕ := m.total Finsupp.single

theorem isAdditive_single : Sparse.IsAdditive (Finsupp.single : Variable → ℕ → Variable →₀ ℕ) :=
  ⟨fun _ => Finsupp.single_zero _, fun _ _ _ => Finsupp.single_add _ _ _⟩

@[simp] theorem exponents_one : (1 : Monomial).exponents = 0 := rfl

@[simp] theorem exponents_mul (m n : Monomial) :
    (m * n).exponents = m.exponents + n.exponents :=
  Sparse.total_add isAdditive_single m n

@[simp] theorem exponents_power (v : Variable) (e : ℕ) :
    (power v e).exponents = Finsupp.single v e :=
  Sparse.total_single isAdditive_single v e

theorem exponents_apply (m : Monomial) (v : Variable) : m.exponents v = m.degree v := by
  have happly : m.exponents v = m.total fun w e => Finsupp.single w e v := by
    unfold exponents Sparse.total
    induction m.entries with
    | nil => rfl
    | cons t ts ih => simp only [List.map_cons, List.sum_cons, Finsupp.add_apply, ih]
  rw [happly, Sparse.total_eq_get (k := v)]
  · exact Finsupp.single_eq_same
  · exact Finsupp.single_eq_same
  · exact fun w e h => Finsupp.single_eq_of_ne h.symm

theorem exponents_injective : Function.Injective exponents := by
  intro m n h
  refine Sparse.eq_of_get fun v => ?_
  have hv := DFunLike.congr_fun h v
  rwa [exponents_apply, exponents_apply] at hv

theorem exponents_without (v : Variable) (m : Monomial) :
    (m.without v).exponents = m.exponents.erase v := by
  unfold without exponents
  rw [Sparse.total_filter]
  unfold Sparse.total
  induction m.entries with
  | nil => simp
  | cons t ts ih =>
      simp only [List.map_cons, List.sum_cons, ih, Finsupp.erase_add]
      by_cases h : t.1 = v
      · simp [h]
      · simp [h]

/-- A monomial is determined by its degree in a variable and by what it is without that. -/
theorem eq_of_without {v : Variable} {m n : Monomial} (hdegree : m.degree v = n.degree v)
    (h : m.without v = n.without v) : m = n := by
  apply exponents_injective
  rw [← Finsupp.erase_add_single v m.exponents, ← Finsupp.erase_add_single v n.exponents,
    ← exponents_without, ← exponents_without, exponents_apply, exponents_apply, hdegree, h]

theorem exponents_rename (f : Variable → Variable) (m : Monomial) :
    (m.rename f).exponents = m.exponents.mapDomain f := by
  unfold rename exponents
  rw [Sparse.total_ofList isAdditive_single, List.map_map]
  unfold Sparse.total
  induction m.entries with
  | nil => simp
  | cons t ts ih =>
      simp only [List.map_cons, List.sum_cons, ih, Finsupp.mapDomain_add, Function.comp_apply,
        Finsupp.mapDomain_single]

theorem isOne_iff {m : Monomial} : m.isOne = true ↔ m = 1 := by
  refine ⟨fun h => Sparse.ext (List.isEmpty_iff.1 h), ?_⟩
  rintro rfl
  rfl

theorem mem_vars {m : Monomial} {v : Variable} : v ∈ m.vars ↔ m.exponents v ≠ 0 := by
  rw [exponents_apply]
  unfold vars degree Sparse.keys
  constructor
  · intro h
    obtain ⟨⟨w, e⟩, ht, rfl⟩ := List.mem_map.1 h
    rw [(Sparse.mem_entries.1 ht).1]
    exact (Sparse.mem_entries.1 ht).2
  · intro h
    exact List.mem_map.2 ⟨_, Sparse.mem_of_get_ne_zero h, rfl⟩

end Monomial

namespace Polynomial

/-- The polynomial as an element of the polynomial ring. -/
noncomputable def toMv (p : Polynomial) : MvPolynomial Variable ℚ :=
  p.total fun m c => MvPolynomial.monomial m.exponents c

theorem isAdditive_monomial : Sparse.IsAdditive (κ := Monomial) (α := ℚ)
    fun m c => MvPolynomial.monomial m.exponents c :=
  ⟨fun _ => map_zero _, fun _ _ _ => map_add _ _ _⟩

@[simp] theorem toMv_zero : (0 : Polynomial).toMv = 0 := rfl

@[simp] theorem toMv_add (p q : Polynomial) : (p + q).toMv = p.toMv + q.toMv :=
  Sparse.total_add isAdditive_monomial p q

@[simp] theorem toMv_sum (ps : List Polynomial) :
    toMv (Sparse.sum ps) = (ps.map toMv).sum :=
  Sparse.total_sum isAdditive_monomial ps

theorem toMv_ofList (ts : List (Monomial × ℚ)) :
    toMv (Sparse.ofList ts) = (ts.map fun t => MvPolynomial.monomial t.1.exponents t.2).sum :=
  Sparse.total_ofList isAdditive_monomial ts

@[simp] theorem toMv_constant (c : ℚ) : (constant c).toMv = MvPolynomial.C c :=
  Sparse.total_single isAdditive_monomial 1 c

@[simp] theorem toMv_one : (1 : Polynomial).toMv = 1 := toMv_constant 1

@[simp] theorem toMv_ofVariable (v : Variable) : (ofVariable v).toMv = MvPolynomial.X v := by
  refine (Sparse.total_single isAdditive_monomial _ _).trans ?_
  rw [Monomial.exponents_power]
  rfl

@[simp] theorem toMv_scale (c : ℚ) (p : Polynomial) :
    (p.scale c).toMv = MvPolynomial.C c * p.toMv := by
  unfold scale
  split
  next h => rw [h, map_zero, zero_mul, toMv_zero]
  next h =>
    unfold toMv Sparse.total
    rw [List.map_map, ← List.sum_map_mul_left]
    simp only [Function.comp_def, MvPolynomial.C_mul_monomial]

@[simp] theorem toMv_neg (p : Polynomial) : (-p).toMv = -p.toMv := by
  refine (toMv_scale (-1) p).trans ?_
  rw [map_neg, map_one, neg_one_mul]

@[simp] theorem toMv_sub (p q : Polynomial) : (p - q).toMv = p.toMv - q.toMv := by
  refine (toMv_add p (-q)).trans ?_
  rw [toMv_neg, sub_eq_add_neg]

@[simp] theorem toMv_mul (p q : Polynomial) : (p * q).toMv = p.toMv * q.toMv := by
  refine (toMv_ofList _).trans ?_
  unfold toMv Sparse.total
  induction p.entries with
  | nil => simp
  | cons s ss ih =>
      rw [List.flatMap_cons, List.map_append, List.sum_append, ih, List.map_cons, List.sum_cons,
        add_mul, List.map_map, ← List.sum_map_mul_left (r := MvPolynomial.monomial _ _)]
      simp only [Function.comp_def, Monomial.exponents_mul, MvPolynomial.monomial_mul]

@[simp] theorem toMv_pow (p : Polynomial) (n : ℕ) : (p ^ n).toMv = p.toMv ^ n := by
  change (p.pow n).toMv = _
  unfold pow
  induction n with
  | zero => simp [Nat.repeat]
  | succ n ih => rw [Nat.repeat, toMv_mul, ih, pow_succ]

@[simp] theorem toMv_mulTerm (m : Monomial) (c : ℚ) (p : Polynomial) :
    (p.mulTerm m c).toMv = p.toMv * MvPolynomial.monomial m.exponents c := by
  refine (toMv_ofList _).trans ?_
  unfold toMv Sparse.total
  rw [← List.sum_map_mul_right, List.map_map]
  simp only [Function.comp_def, Monomial.exponents_mul, MvPolynomial.monomial_mul]

@[simp] theorem toMv_rename (f : Variable → Variable) (p : Polynomial) :
    (p.rename f).toMv = MvPolynomial.rename f p.toMv := by
  refine (toMv_ofList _).trans ?_
  unfold toMv Sparse.total
  rw [map_list_sum, List.map_map, List.map_map]
  simp only [Function.comp_def, Monomial.exponents_rename, MvPolynomial.rename_monomial]

theorem coeff_toMv (p : Polynomial) (m : Monomial) : p.toMv.coeff m.exponents = p.get m := by
  have hcoeff : p.toMv.coeff m.exponents =
      p.total fun n c => (MvPolynomial.monomial n.exponents c).coeff m.exponents := by
    unfold toMv Sparse.total
    rw [← MvPolynomial.coeffAddMonoidHom_apply, map_list_sum, List.map_map]
    rfl
  rw [hcoeff, Sparse.total_eq_get (k := m)]
  · exact (MvPolynomial.coeff_monomial _ _ _).trans (if_pos rfl)
  · exact (MvPolynomial.coeff_monomial _ _ _).trans (if_pos rfl)
  · exact fun n c h => (MvPolynomial.coeff_monomial _ _ _).trans
      (if_neg fun heq => h (Monomial.exponents_injective heq))

theorem toMv_injective : Function.Injective toMv := by
  intro p q h
  refine Sparse.eq_of_get fun m => ?_
  rw [← coeff_toMv, ← coeff_toMv, h]

/-- Terms with different monomials are those of their sum, up to their order. -/
theorem perm_ofList {ts : List (Monomial × ℚ)} (hkeys : (ts.map Prod.fst).Nodup)
    (hnonzero : ∀ t ∈ ts, t.2 ≠ 0) : (Sparse.ofList ts : Polynomial).entries.Perm ts := by
  obtain ⟨p, hp⟩ := Sparse.exists_perm_entries hkeys hnonzero
  have hsum : Sparse.ofList ts = p :=
    toMv_injective ((toMv_ofList ts).trans (hp.map _).sum_eq.symm)
  rwa [hsum]

theorem toMv_eq_zero {p : Polynomial} : p.toMv = 0 ↔ p = 0 :=
  ⟨fun h => toMv_injective (h.trans toMv_zero.symm), fun h => h ▸ toMv_zero⟩

/-- Each element of the polynomial ring is a polynomial. -/
theorem toMv_surjective : Function.Surjective toMv := by
  intro f
  induction f using MvPolynomial.induction_on with
  | C c => exact ⟨constant c, toMv_constant c⟩
  | add f g hf hg =>
      obtain ⟨p, rfl⟩ := hf
      obtain ⟨q, rfl⟩ := hg
      exact ⟨p + q, toMv_add p q⟩
  | mul_X f v hf =>
      obtain ⟨p, rfl⟩ := hf
      exact ⟨p * ofVariable v, by rw [toMv_mul, toMv_ofVariable]⟩

/-- A monomial of the polynomial ring that occurs is one of the listed monomials. -/
theorem exists_mem_of_coeff_ne_zero {p : Polynomial} {e : Variable →₀ ℕ} (h : p.toMv.coeff e ≠ 0) :
    ∃ t ∈ p.entries, t.1.exponents = e := by
  by_contra hnone
  push Not at hnone
  apply h
  unfold toMv Sparse.total
  rw [← MvPolynomial.coeffAddMonoidHom_apply, map_list_sum, List.map_map]
  refine List.sum_eq_zero fun x hx => ?_
  obtain ⟨t, ht, rfl⟩ := List.mem_map.1 hx
  exact (MvPolynomial.coeff_monomial _ _ _).trans (if_neg (hnone t ht))

theorem coeff_ne_zero_of_mem {p : Polynomial} {t : Monomial × ℚ} (h : t ∈ p.entries) :
    p.toMv.coeff t.1.exponents ≠ 0 := by
  have hget := Sparse.mem_entries.1 h
  rw [coeff_toMv, hget.1]
  exact hget.2

theorem mem_support {m : Monomial} {p : Polynomial} :
    m.exponents ∈ p.toMv.support ↔ ∃ c, (m, c) ∈ p.entries := by
  rw [MvPolynomial.mem_support_iff]
  constructor
  · intro h
    obtain ⟨⟨n, c⟩, ht, hn⟩ := exists_mem_of_coeff_ne_zero h
    exact ⟨c, Monomial.exponents_injective hn ▸ ht⟩
  · rintro ⟨c, hc⟩
    exact coeff_ne_zero_of_mem hc

end Polynomial
end Planimetry
