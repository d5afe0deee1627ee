import Mathlib.Algebra.MvPolynomial.Funext
import Mathlib.FieldTheory.IsAlgClosed.Basic
import Planimetry.Proofs.Triangular.Elimination

/-! Common zeros of a triangular system over an algebraically closed field: one variable after another
takes a root, as long as no initial vanishes. -/

namespace Planimetry.Triangular

variable {limit : Int} {v w : Variable} {pending rest : List Hypothesis}

/-- Variables ascend along a chain, and no entry contains one that a later entry eliminates. -/
def IsAscending (es : List ChainEntry) : Prop :=
  es.Pairwise fun e f => compare e.eliminated f.eliminated = .lt ∧ f.eliminated ∉ e.polynomial.vars

theorem IsAscending.eliminate {t t' : Triangular} {vs : List Variable} (ht : IsAscending t.chain)
    (hvs : vs.Pairwise fun a b => compare b a = .lt)
    (hlow : ∀ e ∈ t.chain, ∀ v ∈ vs, compare v e.eliminated = .lt)
    (hfree : ∀ e ∈ t.chain, ∀ k ∈ pending, e.eliminated ∉ k.polynomial.vars)
    (hok : Triangular.eliminate limit t pending vs = .ok t') : IsAscending t'.chain := by
  induction vs generalizing t pending with
  | nil =>
      cases hok
      exact ht
  | cons v vs ih =>
      obtain ⟨found, rest, hi, hok⟩ := eliminate_cons hok
      have hisolates := isolates_of_isolate le_rfl hi
      rw [List.pairwise_cons] at hvs
      have hold (e : ChainEntry) (he : e ∈ t.chain) := hisolates.not_mem_vars (hfree e he)
      have hnew : ∀ e ∈ found.toList.map (fun h => (⟨v, h⟩ : ChainEntry)),
          e.eliminated = v ∧ e.hypothesis ∈ found := by
        intro e he
        obtain ⟨k, hk, rfl⟩ := List.mem_map.1 he
        exact ⟨rfl, Option.mem_toList.1 hk⟩
      refine ih ?_ hvs.2 (fun e he u hu => ?_) (fun e he k hk => ?_) hok
      · refine List.pairwise_append.2 ⟨?_, ht, fun e he f hf => ?_⟩
        · cases found with
          | none => exact .nil
          | some k => exact List.pairwise_singleton _ _
        · obtain ⟨hev, hfound⟩ := hnew e he
          rw [hev]
          exact ⟨hlow f hf v List.mem_cons_self, (hold f hf).1 _ hfound⟩
      · rcases List.mem_append.1 he with he | he
        · rw [(hnew e he).1]
          exact hvs.1 u hu
        · exact hlow e he u (List.mem_cons_of_mem _ hu)
      · rcases List.mem_append.1 he with he | he
        · rw [(hnew e he).1]
          exact Polynomial.degree_eq_zero.1 (hisolates.degree_rest k hk)
        · exact (hold e he).2 k hk

theorem pairwise_dependents (system : List Hypothesis) :
    (dependents system).Pairwise fun a b => compare b a = .lt := by
  unfold dependents
  rw [List.pairwise_reverse]
  refine List.Pairwise.filter _ ?_
  unfold Monomial.vars Sparse.keys
  rw [List.pairwise_map]
  exact Sparse.ascending _

theorem isAscending_ofSystem {t : Triangular} {system : List Hypothesis}
    (hok : ofSystem limit system = .ok t) : IsAscending t.chain :=
  IsAscending.eliminate (t := {}) .nil (pairwise_dependents _) (fun _ he => nomatch he)
    (fun _ he => nomatch he) hok

/-- The polynomials by which `eliminate` divides, each with the variable that it eliminates. -/
def pivots (limit : Int) (pending : List Hypothesis) : List Variable → List (Variable × Polynomial)
  | [] => []
  | v :: vs =>
    match isolate limit v (degreeSum v pending) pending with
    | .error _ => []
    | .ok (_, rest) =>
      (isolationPivots limit v (degreeSum v pending) pending).map (fun g => (v, g)) ++
        pivots limit rest vs

/-- The polynomials by which triangulation divides, each with the variable that it eliminates. -/
def pivotsOf (limit : Int) (system : List Hypothesis) : List (Variable × Polynomial) :=
  let pending := system.filter fun h => !h.polynomial.isZero
  pivots limit pending (dependents pending)

/-- Modulo the chain entries of lower variables, a multiple of the polynomial is a nonzero polynomial in
variables that the chain does not eliminate. -/
def IsRegularAt (t : Triangular) (v : Variable) (q : Polynomial) : Prop :=
  ∃ h : Polynomial, h ≠ 0 ∧ (∀ w ∈ h.vars, w ∉ t.vars) ∧
    h.toMv ∈ Ideal.span ({q.toMv} ∪
      {f | ∃ e ∈ t.chain, compare e.eliminated v = .lt ∧ f = e.polynomial.toMv})

theorem Isolates.mem_of_found {found : Option Hypothesis} {ps : List Polynomial}
    (h : Isolates limit v pending found rest ps) : ∀ k ∈ found, k.polynomial ∈ ps := by
  induction h with
  | absent _ => exact nofun
  | found _ _ =>
      intro k hk
      cases hk
      exact List.mem_cons_self
  | round _ _ _ _ ih => exact fun k hk => List.mem_cons_of_mem _ (ih k hk)

/-- The chain entries that an elimination adds are among its pivots. -/
theorem mem_pivots_of_eliminate {t t' : Triangular} {vs : List Variable}
    (hok : eliminate limit t pending vs = .ok t') :
    ∀ e ∈ t'.chain, e ∈ t.chain ∨ (e.eliminated, e.polynomial) ∈ pivots limit pending vs := by
  induction vs generalizing t pending with
  | nil =>
      cases hok
      exact fun e he => .inl he
  | cons v vs ih =>
      intro e he
      obtain ⟨found, rest, hi, hok⟩ := eliminate_cons hok
      unfold pivots
      simp only [hi]
      rcases ih hok e he with he | he
      · rcases List.mem_append.1 he with he | he
        · obtain ⟨k, hk, rfl⟩ := List.mem_map.1 he
          refine .inr (List.mem_append_left _ (List.mem_map.2 ⟨k.polynomial, ?_, rfl⟩))
          exact (isolates_of_isolate le_rfl hi).mem_of_found k (Option.mem_toList.1 hk)
        · exact .inl he
      · exact .inr (List.mem_append_right _ he)

theorem mem_pivotsOf {t : Triangular} {system : List Hypothesis} (hok : ofSystem limit system = .ok t)
    {e : ChainEntry} (he : e ∈ t.chain) : (e.eliminated, e.polynomial) ∈ pivotsOf limit system :=
  (mem_pivots_of_eliminate (t := {}) hok e he).resolve_left (fun h => nomatch h)

theorem isDependent_of_mem_dependents {system : List Hypothesis} (h : v ∈ dependents system) :
    v.isDependent = true :=
  (List.mem_filter.1 (List.mem_reverse.1 h)).2

theorem mem_of_eliminate {t t' : Triangular} {vs : List Variable}
    (hok : eliminate limit t pending vs = .ok t') : ∀ w ∈ t'.vars, w ∈ t.vars ∨ w ∈ vs := by
  induction vs generalizing t pending with
  | nil =>
      cases hok
      exact fun w hw => .inl hw
  | cons v vs ih =>
      intro w hw
      obtain ⟨found, rest, -, hok⟩ := eliminate_cons hok
      rcases ih hok w hw with hw | hw
      · rw [vars, List.map_append] at hw
        rcases List.mem_append.1 hw with hw | hw
        · obtain ⟨e, he, rfl⟩ := List.mem_map.1 hw
          obtain ⟨k, -, rfl⟩ := List.mem_map.1 he
          exact .inr List.mem_cons_self
        · exact .inl hw
      · exact .inr (List.mem_cons_of_mem _ hw)

/-- Only dependent variables are eliminated. -/
theorem isDependent_of_mem_vars {t : Triangular} {system : List Hypothesis}
    (hok : ofSystem limit system = .ok t) (hv : v ∈ t.vars) : v.isDependent = true :=
  isDependent_of_mem_dependents
    ((mem_of_eliminate (t := {}) hok v hv).resolve_left (fun h => nomatch h))

/-- A nonzero polynomial in the other variables is regular. -/
theorem isRegularAt_of_vars {t : Triangular} {q : Polynomial} (hq : q ≠ 0)
    (hvars : ∀ w ∈ q.vars, w ∉ t.vars) : t.IsRegularAt v q :=
  ⟨q, hq, hvars, Ideal.subset_span (.inl rfl)⟩

section Ideal

variable {K : Type*} [CommRing K] [Algebra ℚ K] {σ : Variable → K}

/-- The members of an ideal vanish where its generators do. -/
theorem aeval_eq_zero_of_mem_span {S : Set (MvPolynomial Variable ℚ)} {f : MvPolynomial Variable ℚ}
    (hf : f ∈ Ideal.span S) (hS : ∀ g ∈ S, MvPolynomial.aeval σ g = 0) :
    MvPolynomial.aeval σ f = 0 := by
  have hle : Ideal.span S ≤ RingHom.ker (MvPolynomial.aeval (R := ℚ) σ) :=
    Ideal.span_le.2 fun g hg => RingHom.mem_ker.2 (hS g hg)
  exact RingHom.mem_ker.1 (hle hf)

/-- The polynomial that shows a regular one keeps it from vanishing with the lower chain entries. -/
theorem valueAt_ne_zero_of_mem_span {h q : Polynomial} {es : List ChainEntry}
    (hmem : h.toMv ∈ Ideal.span ({q.toMv} ∪
      {f | ∃ e ∈ es, compare e.eliminated v = .lt ∧ f = e.polynomial.toMv}))
    (hes : ∀ e ∈ es, compare e.eliminated v = .lt → e.polynomial.valueAt σ = 0)
    (hh : h.valueAt σ ≠ 0) : q.valueAt σ ≠ 0 := by
  intro hq
  refine hh (aeval_eq_zero_of_mem_span hmem fun g hg => ?_)
  rcases hg with hg | ⟨e, he, hlt, hg⟩
  · rw [Set.mem_singleton_iff.1 hg]
    exact hq
  · rw [hg]
    exact hes e he hlt

end Ideal

section Value

variable {K : Type*} [Field K] [Algebra ℚ K] {σ τ : Variable → K} {t t' : Triangular}
  {vs : List Variable}

/-- Where the initials of all pivots do not vanish, the system vanishes with what is left of it. -/
theorem vanishAt_of_eliminate (hok : eliminate limit t pending vs = .ok t')
    (hchain : t'.ChainVanishAt σ) (hresidual : ∀ q ∈ t'.residual, q.valueAt σ = 0)
    (hpivots : ∀ g ∈ pivots limit pending vs, (g.2.initial g.1).valueAt σ ≠ 0) :
    VanishAt σ pending ∧ t.ChainVanishAt σ := by
  induction vs generalizing t pending with
  | nil =>
      cases hok
      exact ⟨fun h hh => hresidual _ (List.mem_map_of_mem hh), hchain⟩
  | cons v vs ih =>
      obtain ⟨found, rest, hi, hok⟩ := eliminate_cons hok
      unfold pivots at hpivots
      simp only [hi] at hpivots
      obtain ⟨hfirst, hlater⟩ := List.forall_mem_append.1 hpivots
      obtain ⟨hrest, hnew⟩ := ih hok hlater
      obtain ⟨hfound, hold⟩ := List.forall_mem_append.1 hnew
      refine ⟨(isolates_of_isolate le_rfl hi).vanishAt_of (fun g hg => ?_) (fun k hk => ?_) hrest,
        hold⟩
      · exact hfirst (v, g) (List.mem_map.2 ⟨g, hg, rfl⟩)
      · exact hfound _ (List.mem_map_of_mem (Option.mem_toList.2 hk))

theorem vanishAt_of_ofSystem {system : List Hypothesis} (hok : ofSystem limit system = .ok t)
    (hchain : t.ChainVanishAt σ) (hresidual : ∀ q ∈ t.residual, q.valueAt σ = 0)
    (hpivots : ∀ g ∈ pivotsOf limit system, (g.2.initial g.1).valueAt σ ≠ 0) :
    VanishAt σ system := by
  obtain ⟨hpending, -⟩ := vanishAt_of_eliminate (t := {}) hok hchain hresidual hpivots
  intro h hh
  cases hz : h.polynomial.isZero with
  | true => rw [Sparse.isZero_iff.1 hz, Polynomial.valueAt_zero]
  | false => exact hpending h (List.mem_filter.2 ⟨hh, by rw [hz]; rfl⟩)

/-- A variable has a value that makes a polynomial vanish, unless its initial does. -/
theorem exists_valueAt_update_eq_zero [IsAlgClosed K] {p : Polynomial} (hdegree : 0 < p.degree v)
    (hinitial : (p.initial v).valueAt σ ≠ 0) : ∃ z, p.valueAt (Function.update σ v z) = 0 := by
  have hcoeff : (p.specialize σ v).coeff (p.degree v) ≠ 0 := by
    rw [Polynomial.coeff_specialize]
    exact hinitial
  have hle := Polynomial.le_natDegree_of_ne_zero hcoeff
  obtain ⟨z, hz⟩ := IsAlgClosed.exists_root (p.specialize σ v)
    (Polynomial.degree_ne_of_natDegree_ne (hdegree.trans_le hle).ne')
  exact ⟨z, by rw [← Polynomial.eval_specialize]; exact hz⟩

/-- Values for the remaining variables of a chain, one after another. -/
theorem exists_chain_zero [IsAlgClosed K] (lower es : List ChainEntry)
    (hascending : IsAscending (lower ++ es)) (hproper : ∀ e ∈ es, 0 < e.polynomial.degree e.eliminated)
    (hlower : ∀ f ∈ lower, f.polynomial.valueAt σ = 0)
    (hinitial : ∀ τ : Variable → K, (∀ w ∉ es.map ChainEntry.eliminated, τ w = σ w) → ∀ e ∈ es,
      (∀ f ∈ lower ++ es, compare f.eliminated e.eliminated = .lt → f.polynomial.valueAt τ = 0) →
        e.initial.valueAt τ ≠ 0) :
    ∃ τ : Variable → K, (∀ w ∉ es.map ChainEntry.eliminated, τ w = σ w) ∧
      ∀ f ∈ lower ++ es, f.polynomial.valueAt τ = 0 := by
  induction es generalizing lower σ with
  | nil => exact ⟨σ, fun _ _ => rfl, by rwa [List.append_nil]⟩
  | cons e es ih =>
      obtain ⟨-, hcons, hcross⟩ := List.pairwise_append.1 hascending
      have hne : e.initial.valueAt σ ≠ 0 := by
        refine hinitial σ (fun _ _ => rfl) e List.mem_cons_self fun f hf hlt => ?_
        rcases List.mem_append.1 hf with hf | hf
        · exact hlower f hf
        · rcases List.mem_cons.1 hf with rfl | hf
          · rw [Std.ReflOrd.compare_self] at hlt
            cases hlt
          · have hgt := ((List.pairwise_cons.1 hcons).1 f hf).1
            exact absurd hlt (Std.OrientedCmp.not_lt_of_lt hgt)
      obtain ⟨z, hz⟩ := exists_valueAt_update_eq_zero (hproper e List.mem_cons_self) hne
      have hsplit : lower ++ e :: es = (lower ++ [e]) ++ es := by
        rw [List.append_assoc, List.singleton_append]
      have hagree (τ : Variable → K)
          (hτ : ∀ w ∉ es.map ChainEntry.eliminated, τ w = Function.update σ e.eliminated z w)
          (w : Variable) (hw : w ∉ (e :: es).map ChainEntry.eliminated) : τ w = σ w := by
        rw [List.map_cons, List.mem_cons, not_or] at hw
        rw [hτ w hw.2, Function.update_of_ne hw.1]
      have hnext : ∀ f ∈ lower ++ [e], f.polynomial.valueAt (Function.update σ e.eliminated z) = 0 := by
        intro f hf
        rcases List.mem_append.1 hf with hf | hf
        · rw [← hlower f hf]
          refine Polynomial.valueAt_congr fun w hw => Function.update_of_ne ?_ _ _
          rintro rfl
          exact (hcross f hf e List.mem_cons_self).2 hw
        · rw [List.mem_singleton.1 hf]
          exact hz
      rw [hsplit] at hascending hinitial ⊢
      obtain ⟨τ, hτ, hzero⟩ := ih _ hascending (fun f hf => hproper f (List.mem_cons_of_mem _ hf)) hnext
        fun τ hτ f hf => hinitial τ (hagree τ hτ) f (List.mem_cons_of_mem _ hf)
      exact ⟨τ, hagree τ hτ, hzero⟩

theorem valueAt_algebraMap (ρ : Variable → ℚ) (p : Polynomial) :
    p.valueAt (fun v => algebraMap ℚ K (ρ v)) = algebraMap ℚ K (MvPolynomial.eval ρ p.toMv) := by
  exact MvPolynomial.aeval_algebraMap_apply K ρ p.toMv

/-- Finitely many nonzero polynomials have values other than zero at one assignment. -/
theorem exists_valueAt_ne_zero [CharZero K] (ps : List Polynomial) (hps : ∀ p ∈ ps, p ≠ 0) :
    ∃ σ : Variable → K, ∀ p ∈ ps, p.valueAt σ ≠ 0 := by
  have hprod : (ps.map Polynomial.toMv).prod ≠ 0 := by
    refine List.prod_ne_zero fun hmem => ?_
    obtain ⟨p, hp, hzero⟩ := List.mem_map.1 hmem
    exact hps p hp (Polynomial.toMv_eq_zero.1 hzero)
  obtain ⟨ρ, hρ⟩ : ∃ ρ, MvPolynomial.eval ρ (ps.map Polynomial.toMv).prod ≠ 0 := by
    by_contra hnone
    push Not at hnone
    exact hprod (MvPolynomial.funext fun ρ => by rw [hnone ρ, map_zero])
  refine ⟨fun v => algebraMap ℚ K (ρ v), fun p hp hzero => hρ ?_⟩
  rw [valueAt_algebraMap, map_eq_zero] at hzero
  rw [map_list_prod, List.map_map]
  exact List.prod_eq_zero (List.mem_map.2 ⟨p, hp, hzero⟩)

/-- Over an algebraically closed field, a system without residual whose pivots all have regular initials
has a common zero at which a given polynomial in the other variables does not vanish. -/
theorem exists_vanishAt [IsAlgClosed K] [CharZero K] {system : List Hypothesis}
    (hok : ofSystem limit system = .ok t) (hresidual : t.residual = [])
    (hregular : ∀ g ∈ pivotsOf limit system, t.IsRegularAt g.1 (g.2.initial g.1)) {r : Polynomial}
    (hr : r ≠ 0) (hvars : ∀ w ∈ r.vars, w ∉ t.vars) :
    ∃ σ : Variable → K, VanishAt σ system ∧ r.valueAt σ ≠ 0 := by
  choose! shown hshown using hregular
  obtain ⟨σ, hσ⟩ := exists_valueAt_ne_zero (K := K)
    (r :: (pivotsOf limit system).map shown) fun p hp => by
      rcases List.mem_cons.1 hp with rfl | hp
      · exact hr
      · obtain ⟨g, hg, rfl⟩ := List.mem_map.1 hp
        exact (hshown g hg).1
  have hkeep (τ : Variable → K) (hτ : ∀ w ∉ t.vars, τ w = σ w) {p : Polynomial}
      (hp : ∀ w ∈ p.vars, w ∉ t.vars) : p.valueAt τ = p.valueAt σ :=
    Polynomial.valueAt_congr fun w hw => hτ w (hp w hw)
  have hinitial (τ : Variable → K) (hτ : ∀ w ∉ t.vars, τ w = σ w) (g : Variable × Polynomial)
      (hg : g ∈ pivotsOf limit system)
      (hlow : ∀ f ∈ t.chain, compare f.eliminated g.1 = .lt → f.polynomial.valueAt τ = 0) :
      (g.2.initial g.1).valueAt τ ≠ 0 := by
    obtain ⟨-, hfree, hspan⟩ := hshown g hg
    refine valueAt_ne_zero_of_mem_span hspan hlow ?_
    rw [hkeep τ hτ hfree]
    exact hσ _ (List.mem_cons_of_mem _ (List.mem_map_of_mem hg))
  obtain ⟨τ, hτ, hchain⟩ := exists_chain_zero (σ := σ) [] t.chain
    (isAscending_ofSystem hok) (isProper_ofSystem hok) (List.forall_mem_nil _)
    fun τ hτ e he hlow => hinitial τ hτ (e.eliminated, e.polynomial) (mem_pivotsOf hok he) hlow
  refine ⟨τ, vanishAt_of_ofSystem hok hchain ?_ fun g hg => hinitial τ hτ g hg ?_, ?_⟩
  · rw [hresidual]
    exact List.forall_mem_nil _
  · exact fun f hf _ => hchain f hf
  · rw [hkeep τ hτ hvars]
    exact hσ r List.mem_cons_self

end Value

end Planimetry.Triangular
