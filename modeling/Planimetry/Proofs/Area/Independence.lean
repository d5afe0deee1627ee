import Mathlib.Algebra.MvPolynomial.Funext
import Mathlib.Data.Finsupp.Multiset
import Planimetry.Proofs.Area.NormalForm
import Planimetry.Proofs.Area.Orientation

/-! Expanded forms are determined by their values: canonical quantities are independent variables, as any
values of them are values of all quantities. -/

namespace Planimetry.Area

variable {ν ν' : Quantity → ℚ}

/-! ### Canonical products -/

/-- The factors are canonical quantities in ascending order. -/
structure Factors.IsCanonical (f : Factors) : Prop where
  ascending : f.Pairwise fun q r => (compare q r).isLE = true
  quantities : ∀ q ∈ f, q.IsCanonical

namespace Factors

variable {f g : Factors}

theorem isCanonical_nil : IsCanonical [] := ⟨.nil, List.forall_mem_nil _⟩

theorem isCanonical_singleton {q : Quantity} (h : q.IsCanonical) : IsCanonical [q] :=
  ⟨List.pairwise_singleton _ q, List.forall_mem_singleton.2 h⟩

theorem IsCanonical.mulFactors (hf : f.IsCanonical) (hg : g.IsCanonical) :
    (Expansion.mulFactors f g).IsCanonical where
  ascending := List.pairwise_merge (fun _ _ _ => Std.TransCmp.isLE_trans)
    (fun q r => by
      have hswap : compare r q = (compare q r).swap := Std.OrientedCmp.eq_swap
      rw [hswap]
      cases compare q r <;> rfl) f g hf.ascending hg.ascending
  quantities q hq := by
    rcases List.mem_append.1 ((List.merge_perm_append _).mem_iff.1 hq) with hq | hq
    · exact hf.quantities q hq
    · exact hg.quantities q hq

/-- How often each quantity occurs. -/
noncomputable def exponents (f : Factors) : Quantity →₀ ℕ := Multiset.toFinsupp (f : Multiset Quantity)

theorem eq_of_exponents (hf : f.IsCanonical) (hg : g.IsCanonical) (h : f.exponents = g.exponents) :
    f = g := by
  have hperm : f.Perm g := Multiset.coe_eq_coe.1 (Multiset.toFinsupp.injective h)
  refine hperm.eq_of_pairwise (fun q r _ _ hqr hrq => ?_) hf.ascending hg.ascending
  exact Std.LawfulEqCmp.eq_of_compare (Std.OrientedCmp.isLE_antisymm hqr hrq)

/-- The product of the factors as variables. -/
theorem prod_map_X (f : Factors) :
    (f.map MvPolynomial.X).prod = MvPolynomial.monomial f.exponents (1 : ℚ) := by
  induction f with
  | nil => rfl
  | cons q f ih =>
      rw [List.map_cons, List.prod_cons, ih, MvPolynomial.X, MvPolynomial.monomial_mul, one_mul]
      unfold exponents
      rw [← Multiset.cons_coe, ← Multiset.singleton_add, Multiset.toFinsupp_add, Multiset.toFinsupp_singleton]

theorem eval_prod_map_X (f : Factors) (ν : Quantity → ℚ) :
    MvPolynomial.eval ν (f.map MvPolynomial.X).prod = (f.map ν).prod := by
  rw [map_list_prod, List.map_map]
  exact congr_arg List.prod (List.map_congr_left fun q _ => MvPolynomial.eval_X q)

theorem IsCanonical.map_ratioAt (hf : f.IsCanonical) (value : Quantity → ℚ) :
    f.map (Quantity.ratioAt value) = f.map value :=
  List.map_congr_left fun q hq => Quantity.ratioAt_of_isCanonical (hf.quantities q hq)

end Factors

namespace Expansion

/-- All products are canonical. -/
def IsCanonical (s : Expansion) : Prop := ∀ t ∈ s.entries, Factors.IsCanonical t.1

/-- The sum as an element of the polynomial ring over the quantities. -/
noncomputable def toMv (s : Expansion) : MvPolynomial Quantity ℚ :=
  s.total fun f c => MvPolynomial.C c * (f.map MvPolynomial.X).prod

theorem eval_toMv (ν : Quantity → ℚ) (s : Expansion) : MvPolynomial.eval ν s.toMv = s.valueAt ν := by
  unfold toMv valueAt Sparse.total
  rw [map_list_sum, List.map_map]
  refine congr_arg List.sum (List.map_congr_left fun t _ => ?_)
  rw [Function.comp_apply, map_mul, MvPolynomial.eval_C, Factors.eval_prod_map_X]
  rfl

variable {s t : Expansion}

theorem IsCanonical.valueAt_ratioAt (hs : s.IsCanonical) (value : Quantity → ℚ) :
    s.valueAt (Quantity.ratioAt value) = s.valueAt value := by
  refine congr_arg List.sum (List.map_congr_left fun t ht => ?_)
  unfold termValue
  rw [(hs t ht).map_ratioAt]

/-- Different canonical products are different monomials: a coefficient is that of one product. -/
theorem IsCanonical.coeff_toMv (hs : s.IsCanonical) {f : Factors} (hf : f.IsCanonical) :
    s.toMv.coeff f.exponents = s.get f := by
  have hread : s.toMv.coeff f.exponents = s.total fun g c => if g = f then c else 0 := by
    unfold toMv Sparse.total
    rw [← MvPolynomial.lcoeff_apply ℚ, map_list_sum, List.map_map]
    refine congr_arg List.sum (List.map_congr_left fun t ht => ?_)
    rw [Function.comp_apply, MvPolynomial.lcoeff_apply, MvPolynomial.coeff_C_mul, Factors.prod_map_X,
      MvPolynomial.coeff_monomial, mul_ite, mul_one, mul_zero]
    exact if_congr ⟨Factors.eq_of_exponents (hs t ht) hf, congr_arg Factors.exponents⟩ rfl rfl
  refine hread.trans ((Sparse.total_eq_get (k := f) (if_pos rfl) (fun _ _ hne => if_neg hne) s).trans ?_)
  exact if_pos rfl

theorem IsCanonical.get_eq_zero (hs : s.IsCanonical) {f : Factors} (hf : ¬f.IsCanonical) : s.get f = 0 := by
  by_contra hne
  exact hf (hs _ (Sparse.mem_of_get_ne_zero hne))

/-- Canonical forms with the same values for all values of the quantities are the same. -/
theorem IsCanonical.eq_of_valueAt (hs : s.IsCanonical) (ht : t.IsCanonical)
    (h : ∀ ν, RespectsOrientation ν → s.valueAt ν = t.valueAt ν) : s = t := by
  have hmv : s.toMv = t.toMv := by
    refine MvPolynomial.funext fun value => ?_
    rw [eval_toMv, eval_toMv, ← hs.valueAt_ratioAt, ← ht.valueAt_ratioAt]
    exact h _ (Quantity.respectsOrientation_ratioAt value)
  refine Sparse.eq_of_get fun f => ?_
  by_cases hf : f.IsCanonical
  · rw [← hs.coeff_toMv hf, hmv, ht.coeff_toMv hf]
  · rw [hs.get_eq_zero hf, ht.get_eq_zero hf]

theorem isCanonical_zero : (0 : Expansion).IsCanonical := List.forall_mem_nil _

/-- A canonical form vanishes for all values of the quantities only if it is zero. -/
theorem IsCanonical.isZero (hs : s.IsCanonical)
    (h : ∀ ν, RespectsOrientation ν → s.valueAt ν = 0) : s.isZero = true :=
  Sparse.isZero_iff.2 (hs.eq_of_valueAt isCanonical_zero h)

theorem valueAt_filter (keep : Factors → Bool) (ν : Quantity → ℚ) (s : Expansion) :
    s.valueAt ν = valueAt ν (s.filter keep) + valueAt ν (s.filter fun f => !keep f) := by
  unfold valueAt Sparse.total
  rw [← List.sum_append, ← List.map_append]
  exact ((List.filter_append_perm (fun t => keep t.1) s.entries).map fun t => termValue ν t.1 t.2).sum_eq.symm

theorem IsCanonical.filter (hs : s.IsCanonical) (keep : Factors → Bool) : IsCanonical (s.filter keep) :=
  fun t ht => hs t (List.mem_of_mem_filter ht)

open Classical in
/-- The quantities of a canonical form are among those that its value depends on. -/
theorem IsCanonical.forall_mem (hs : s.IsCanonical) {R : Quantity → Prop}
    (h : ∀ ν ν', RespectsOrientation ν → RespectsOrientation ν' →
      (∀ q, q.IsCanonical → R q → ν q = ν' q) → s.valueAt ν = s.valueAt ν') :
    ∀ t ∈ s.entries, ∀ q ∈ t.1, R q := by
  let inside (f : Factors) : Bool := decide (∀ q ∈ f, R q)
  -- the terms with other quantities vanish where these do, but do not change the value
  have hout : (s.filter fun f => !inside f) = 0 := by
    refine (hs.filter _).eq_of_valueAt isCanonical_zero fun ν hν => ?_
    let ν' : Quantity → ℚ := Quantity.ratioAt fun q => if R q then ν q else 0
    have hν' {q : Quantity} (hq : q.IsCanonical) : ν' q = if R q then ν q else 0 :=
      Quantity.ratioAt_of_isCanonical hq
    have hvalue : s.valueAt ν = s.valueAt ν' :=
      h ν ν' hν (Quantity.respectsOrientation_ratioAt _) fun q hq hR => ((hν' hq).trans (if_pos hR)).symm
    have hinside : valueAt ν' (s.filter inside) = valueAt ν (s.filter inside) := by
      refine congr_arg List.sum (List.map_congr_left fun t ht => ?_)
      obtain ⟨ht, hR⟩ := List.mem_filter.1 ht
      refine congr_arg (fun l : List ℚ => t.2 * l.prod) (List.map_congr_left fun q hq => ?_)
      exact (hν' ((hs t ht).quantities q hq)).trans (if_pos (of_decide_eq_true hR q hq))
    have houtside : valueAt ν' (s.filter fun f => !inside f) = 0 := by
      refine List.sum_eq_zero fun x hx => ?_
      obtain ⟨t, ht, rfl⟩ := List.mem_map.1 hx
      obtain ⟨ht, hR⟩ := List.mem_filter.1 ht
      have hR : ∃ q ∈ t.1, ¬R q := by simpa [inside] using hR
      obtain ⟨q, hq, hR⟩ := hR
      refine mul_eq_zero_of_right _ (List.prod_eq_zero (List.mem_map.2 ⟨q, hq, ?_⟩))
      exact (hν' ((hs t ht).quantities q hq)).trans (if_neg hR)
    rw [valueAt_filter inside ν, valueAt_filter inside ν', hinside, houtside, add_zero] at hvalue
    exact left_eq_add.1 hvalue.symm
  intro t ht
  by_contra hR
  have hmem : t ∈ (s.filter fun f => !inside f).entries := List.mem_filter.2 ⟨ht, by simpa [inside] using hR⟩
  rw [hout] at hmem
  cases hmem

end Expansion

theorem Expr.isCanonical_expand {e : Expr} {s : Expansion} (h : e.expand = .ok s) : s.IsCanonical :=
  Expr.forall_key_expand Factors.isCanonical_nil
    (fun _ _ _ _ ho hk => Factors.isCanonical_singleton (Quantity.isCanonical_orient ho hk))
    (fun _ _ => Factors.IsCanonical.mulFactors) h

theorem Expr.isCanonical_normalForm {e : Expr} {s : Expansion} (h : e.normalForm = .ok s) :
    s.IsCanonical :=
  Expr.isCanonical_expand h

end Planimetry.Area
