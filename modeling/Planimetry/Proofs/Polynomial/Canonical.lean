import Mathlib.Algebra.CharZero.Infinite
import Mathlib.Algebra.MvPolynomial.Funext
import Planimetry.Polynomial.Checked
import Planimetry.Proofs.Polynomial.Evaluation

/-! Canonical terms: what the operations on polynomials store, and what its equality says about values. -/

namespace Planimetry.Polynomial

/-- The polynomials that the operations make of constants and variables. -/
inductive Obtained : Polynomial → Prop
  | constant (c : ℚ) : Obtained (constant c)
  | ofVariable (v : Variable) : Obtained (ofVariable v)
  | add {p q : Polynomial} (hp : Obtained p) (hq : Obtained q) : Obtained (p + q)
  | sub {p q : Polynomial} (hp : Obtained p) (hq : Obtained q) : Obtained (p - q)
  | mul {p q : Polynomial} (hp : Obtained p) (hq : Obtained q) : Obtained (p * q)
  | scale {p : Polynomial} (c : ℚ) (hp : Obtained p) : Obtained (p.scale c)
  | neg {p : Polynomial} (hp : Obtained p) : Obtained (-p)
  | pow {p : Polynomial} (n : ℕ) (hp : Obtained p) : Obtained (p ^ n)
  | mulTerm {p : Polynomial} (m : Monomial) (c : ℚ) (hp : Obtained p) : Obtained (p.mulTerm m c)
  | sum {ps : List Polynomial} (hps : ∀ p ∈ ps, Obtained p) : Obtained (sumOf ps)
  | substitute {p q : Polynomial} (v : Variable) (hp : Obtained p) (hq : Obtained q) :
      Obtained (p.substitute v q)
  | rename {p : Polynomial} (f : Variable → Variable) (hp : Obtained p) : Obtained (p.rename f)
  | instantiate {t : Template} {q : Polynomial} {coords : Label → Option (Variable × Variable)}
      (ht : Obtained t) (h : t.instantiate coords = .ok q) : Obtained q
  | coefficient {p : Polynomial} (v : Variable) (n : ℕ) (hp : Obtained p) :
      Obtained (p.coefficient v n)
  | remainder {f g r : Polynomial} {v : Variable} (hf : Obtained f) (hg : Obtained g)
      (h : f.remainder g v = .ok r) : Obtained r

/-- The powers and the coefficient of each term. -/
def stored (p : Polynomial) : List (List (Variable × ℕ) × ℚ) :=
  p.entries.map fun t => (t.1.entries, t.2)

/-- Terms as a polynomial is meant to store them: no coefficient is zero, no power product is listed
twice, and each lists its variables in ascending order with positive exponents. -/
structure IsCanonical (ts : List (List (Variable × ℕ) × ℚ)) : Prop where
  coefficients : ∀ t ∈ ts, t.2 ≠ 0
  distinct : (ts.map Prod.fst).Nodup
  ascending : ∀ t ∈ ts, t.1.Pairwise fun s u => compare s.1 u.1 = .lt
  exponents : ∀ t ∈ ts, ∀ s ∈ t.1, 0 < s.2

/-! ### What is stored -/

theorem IsCanonical.perm {ts us : List (List (Variable × ℕ) × ℚ)} (h : IsCanonical ts)
    (hp : ts.Perm us) : IsCanonical us :=
  { coefficients := fun t ht => h.coefficients t (hp.mem_iff.2 ht)
    distinct := (hp.map Prod.fst).nodup_iff.1 h.distinct
    ascending := fun t ht => h.ascending t (hp.mem_iff.2 ht)
    exponents := fun t ht => h.exponents t (hp.mem_iff.2 ht) }

theorem isCanonical_stored (p : Polynomial) : IsCanonical p.stored := by
  have hterm (P : List (Variable × ℕ) × ℚ → Prop) (h : ∀ t ∈ p.entries, P (t.1.entries, t.2)) :
      ∀ t ∈ p.stored, P t := List.forall_mem_map.2 h
  have hkeys : p.stored.map Prod.fst = p.keys.map Sparse.entries := by
    rw [stored, Sparse.keys, List.map_map, List.map_map]
    rfl
  exact
    { coefficients := hterm _ p.nonzero
      distinct := hkeys ▸ p.nodup_keys.map fun _ _ => Sparse.ext
      ascending := hterm _ fun t _ => t.1.ascending
      exponents := hterm _ fun t _ s hs => Nat.pos_of_ne_zero (t.1.nonzero s hs) }

/-- Canonical power products are those of monomials. -/
theorem IsCanonical.exists_monomials {ts : List (List (Variable × ℕ) × ℚ)} (h : IsCanonical ts) :
    ∃ es : List (Monomial × ℚ), es.map (fun e => (e.1.entries, e.2)) = ts := by
  change ts ∈ Set.range (List.map fun e : Monomial × ℚ => (e.1.entries, e.2))
  rw [Set.range_list_map]
  intro t ht
  exact ⟨(⟨t.1, h.ascending t ht, fun s hs => (h.exponents t ht s hs).ne'⟩, t.2), rfl⟩

theorem exists_perm_stored {ts : List (List (Variable × ℕ) × ℚ)} (h : IsCanonical ts) :
    ∃ p : Polynomial, p.stored.Perm ts := by
  obtain ⟨es, rfl⟩ := h.exists_monomials
  have hkeys : (es.map Prod.fst).Nodup := by
    refine List.Nodup.of_map Sparse.entries ?_
    have hdistinct := h.distinct
    rwa [List.map_map] at hdistinct ⊢
  exact ⟨Sparse.ofList es, (perm_ofList hkeys fun e he =>
    h.coefficients _ (List.mem_map_of_mem he)).map _⟩

/-! ### What is obtained -/

/-- The product of the powers of a monomial. -/
def ofMonomial (m : Monomial) : Polynomial :=
  m.entries.foldr (fun t p => ofVariable t.1 ^ t.2 * p) 1

theorem toMv_ofMonomial (m : Monomial) : (ofMonomial m).toMv = MvPolynomial.monomial m.exponents 1 := by
  unfold ofMonomial Monomial.exponents Sparse.total
  induction m.entries with
  | nil => exact toMv_one
  | cons t ts ih =>
      rw [List.foldr_cons, toMv_mul, toMv_pow, toMv_ofVariable, ih, List.map_cons, List.sum_cons,
        MvPolynomial.X_pow_eq_monomial, MvPolynomial.monomial_mul, one_mul]

theorem obtained_ofMonomial (m : Monomial) : Obtained (ofMonomial m) := by
  unfold ofMonomial
  induction m.entries with
  | nil => exact .constant 1
  | cons t ts ih => exact .mul (.pow t.2 (.ofVariable t.1)) ih

theorem single_eq_scale_ofMonomial (m : Monomial) (c : ℚ) :
    Sparse.single m c = (ofMonomial m).scale c := by
  apply toMv_injective
  rw [toMv_scale, toMv_ofMonomial, MvPolynomial.C_mul_monomial, mul_one]
  exact Sparse.total_single isAdditive_monomial m c

theorem ofList_entries (p : Polynomial) : Sparse.ofList p.entries = p :=
  toMv_injective (toMv_ofList p.entries)

/-- Sums of multiples of products of powers are all polynomials. -/
theorem obtained (p : Polynomial) : Obtained p := by
  rw [← ofList_entries p, Sparse.ofList, ← sumOf_eq]
  refine .sum (List.forall_mem_map.2 fun t _ => ?_)
  rw [single_eq_scale_ofMonomial]
  exact .scale t.2 (obtained_ofMonomial t.1)

/-! ### Equality -/

/-- The order of the terms of a polynomial is determined. -/
theorem eq_of_perm_stored {p q : Polynomial} (h : p.stored.Perm q.stored) : p = q := by
  have hinjective : Function.Injective fun t : Monomial × ℚ => (t.1.entries, t.2) := by
    intro s t hst
    have hpair := Prod.mk.inj hst
    exact Prod.ext (Sparse.ext hpair.1) hpair.2
  exact Sparse.eq_of_perm ((List.map_perm_map_iff hinjective).1 h)

theorem valueAt_eq_eval (s : Variable → ℚ) (p : Polynomial) :
    valueAt s p = MvPolynomial.eval s p.toMv := by
  rw [valueAt, MvPolynomial.aeval_eq_eval]

theorem eq_of_forall_eval {p q : Polynomial} (h : ∀ s : Variable → ℚ, p.eval s = q.eval s) :
    p = q := by
  refine toMv_injective (MvPolynomial.funext fun s => ?_)
  rw [← valueAt_eq_eval, ← valueAt_eq_eval, ← eval_eq_valueAt, ← eval_eq_valueAt]
  exact h s

/-- Canonical terms are what the operations obtain, up to the order of terms. -/
theorem exists_obtained_iff {ts : List (List (Variable × ℕ) × ℚ)} :
    (∃ p, Obtained p ∧ p.stored.Perm ts) ↔ IsCanonical ts := by
  constructor
  · rintro ⟨p, -, hp⟩
    exact (isCanonical_stored p).perm hp
  · intro h
    obtain ⟨p, hp⟩ := exists_perm_stored h
    exact ⟨p, obtained p, hp⟩

theorem beq_iff_perm {p q : Polynomial} : (p == q) = true ↔ p.stored.Perm q.stored := by
  rw [beq_iff_eq]
  constructor
  · rintro rfl
    exact .refl _
  · exact eq_of_perm_stored

theorem eq_iff_forall_eval {p q : Polynomial} : p = q ↔ ∀ s : Variable → ℚ, p.eval s = q.eval s := by
  constructor
  · rintro rfl s
    rfl
  · exact eq_of_forall_eval

theorem isZero_iff_forall_eval {p : Polynomial} :
    p.isZero = true ↔ ∀ s : Variable → ℚ, p.eval s = 0 :=
  Sparse.isZero_iff.trans eq_iff_forall_eval

/-- Canonical terms are what the operations obtain, up to the order of terms, and polynomials are equal
if and only if they have the same terms, or else the same values at all rational assignments. -/
theorem beq_iff_forall_eval :
    (∀ ts, (∃ p, Obtained p ∧ p.stored.Perm ts) ↔ IsCanonical ts) ∧
      (∀ p q : Polynomial, (p == q) = true ↔ p.stored.Perm q.stored) ∧
      (∀ p q : Polynomial, (p == q) = true ↔ ∀ s : Variable → ℚ, p.eval s = q.eval s) ∧
      ∀ p : Polynomial, p.isZero = true ↔ ∀ s : Variable → ℚ, p.eval s = 0 :=
  ⟨fun _ => exists_obtained_iff, fun _ _ => beq_iff_perm, fun _ _ => beq_iff_eq.trans eq_iff_forall_eval,
    fun _ => isZero_iff_forall_eval⟩

end Planimetry.Polynomial
