import Planimetry.Proofs.Triangular.Shape

/-! Combinations of hypotheses: whatever triangulation leaves is one, and the system has no other common
zeros than those that this accounts for, as far as no pivot has an initial that vanishes. -/

universe u

namespace Planimetry

namespace Polynomial

/-! ### Combinations -/

/-- A combination of hypotheses with polynomial coefficients. -/
def combination (cs : List Polynomial) (hs : List Hypothesis) : Polynomial :=
  (List.zipWith (fun c h => c * h.polynomial) cs hs).foldr (· + ·) 0

theorem combination_cons (c : Polynomial) (cs : List Polynomial) (h : Hypothesis)
    (hs : List Hypothesis) :
    combination (c :: cs) (h :: hs) = c * h.polynomial + combination cs hs := rfl

theorem valueAt_combination {K : Type*} [Field K] [Algebra ℚ K] {σ : Variable → K}
    {cs : List Polynomial} {hs : List Hypothesis} (h : VanishAt σ hs) :
    (combination cs hs).valueAt σ = 0 := by
  unfold combination
  induction hs generalizing cs with
  | nil => rw [List.zipWith_nil_right, List.foldr_nil, valueAt_zero]
  | cons k hs ih =>
      obtain ⟨hk, hhs⟩ := List.forall_mem_cons.1 h
      cases cs with
      | nil => rw [List.zipWith_nil_left, List.foldr_nil, valueAt_zero]
      | cons c cs =>
          rw [List.zipWith_cons_cons, List.foldr_cons, valueAt_add, valueAt_mul, hk, mul_zero, ih hhs,
            add_zero]

/-- The ideal of all combinations of hypotheses. -/
noncomputable def span (hs : List Hypothesis) : Ideal (MvPolynomial Variable ℚ) :=
  Ideal.span {f | ∃ h ∈ hs, f = h.polynomial.toMv}

theorem toMv_mem_span {hs : List Hypothesis} {h : Hypothesis} (hh : h ∈ hs) :
    h.polynomial.toMv ∈ span hs :=
  Ideal.subset_span ⟨h, hh, rfl⟩

theorem exists_combination_of_mem_span {hs : List Hypothesis} {p : Polynomial} (h : p.toMv ∈ span hs) :
    ∃ cs, cs.length = hs.length ∧ p = combination cs hs := by
  unfold span at h
  induction hs generalizing p with
  | nil =>
      refine ⟨[], rfl, toMv_eq_zero.1 ?_⟩
      simpa using h
  | cons k hs ih =>
      have hinsert : {f | ∃ h ∈ k :: hs, f = h.polynomial.toMv} =
          insert k.polynomial.toMv {f | ∃ h ∈ hs, f = h.polynomial.toMv} := by
        ext f
        exact List.exists_mem_cons_iff _ _ _
      rw [hinsert, Ideal.mem_span_insert] at h
      obtain ⟨c, f, hf, hp⟩ := h
      obtain ⟨c, rfl⟩ := toMv_surjective c
      obtain ⟨q, rfl⟩ := toMv_surjective f
      obtain ⟨cs, hlength, rfl⟩ := ih hf
      refine ⟨c :: cs, congr_arg (· + 1) hlength, toMv_injective ?_⟩
      rw [hp, combination_cons, toMv_add, toMv_mul]

/-- A remainder is a combination of whatever dividend and divisor are combinations of. -/
theorem toMv_pseudoRemainder_mem {I : Ideal (MvPolynomial Variable ℚ)} {f g : Polynomial} (v : Variable)
    (hf : f.toMv ∈ I) (hg : g.toMv ∈ I) : (f.pseudoRemainder g v).toMv ∈ I := by
  obtain ⟨k, q, -, h⟩ := exists_initial_pow_mul_eq_reduceWhile g v (f.degree v + 1 - g.degree v) f
  have hremainder : (f.pseudoRemainder g v).toMv =
      (g.initial v ^ k).toMv * f.toMv - q.toMv * g.toMv := by
    rw [← toMv_mul, ← toMv_mul, h, toMv_add, add_sub_cancel_left]
    rfl
  rw [hremainder]
  exact sub_mem (I.mul_mem_left _ hf) (I.mul_mem_left _ hg)

/-! ### Products -/

/-- The product of all polynomials of a list. -/
def product (ps : List Polynomial) : Polynomial := ps.foldr (fun p q => p * q) 1

section Product

variable {ps : List Polynomial}

theorem product_cons (p : Polynomial) (ps : List Polynomial) : product (p :: ps) = p * product ps := rfl

theorem toMv_product (ps : List Polynomial) : (product ps).toMv = (ps.map toMv).prod := by
  induction ps with
  | nil => exact toMv_one
  | cons p ps ih => rw [List.map_cons, List.prod_cons, ← ih, ← toMv_mul, product_cons]

theorem valueAt_product {K : Type*} [CommRing K] [Algebra ℚ K] (σ : Variable → K)
    (ps : List Polynomial) : (product ps).valueAt σ = (ps.map (valueAt σ)).prod := by
  rw [valueAt, toMv_product, map_list_prod, List.map_map]
  rfl

theorem product_ne_zero (h : ∀ p ∈ ps, p ≠ 0) : product ps ≠ 0 := by
  rw [Ne, ← toMv_eq_zero, toMv_product]
  refine List.prod_ne_zero fun hmem => ?_
  obtain ⟨p, hp, hzero⟩ := List.mem_map.1 hmem
  exact h p hp (toMv_eq_zero.1 hzero)

theorem valueAt_ne_zero_of_product {K : Type*} [Field K] [Algebra ℚ K] {σ : Variable → K}
    (h : (product ps).valueAt σ ≠ 0) : ∀ p ∈ ps, p.valueAt σ ≠ 0 := by
  intro p hp hzero
  rw [valueAt_product] at h
  exact h (List.prod_eq_zero (List.mem_map.2 ⟨p, hp, hzero⟩))

end Product

end Polynomial

/-! ### Triangulation -/

namespace Triangular

variable {limit : Int} {t t' : Triangular} {pending system : List Hypothesis} {vs : List Variable}

/-- What remainders inherit from dividend and divisor passes from the hypotheses to all that comes of them. -/
theorem forall_of_eliminate {P : Polynomial → Prop}
    (hP : ∀ (v : Variable) (f g : Polynomial), 0 < g.degree v → P f → P g → P (f.pseudoRemainder g v))
    (hok : eliminate limit t pending vs = .ok t') (hchain : ∀ e ∈ t.chain, P e.polynomial)
    (hpending : ∀ k ∈ pending, P k.polynomial) :
    (∀ e ∈ t'.chain, P e.polynomial) ∧ ∀ q ∈ t'.residual, P q := by
  induction vs generalizing t pending with
  | nil =>
      cases hok
      exact ⟨hchain, List.forall_mem_map.2 hpending⟩
  | cons v vs ih =>
      obtain ⟨found, rest, hi, hok⟩ := eliminate_cons hok
      obtain ⟨hfound, hrest⟩ := (isolates_of_isolate le_rfl hi).forall_mem
        (fun f g hpos hf hg _ => hP v f g hpos hf hg) hpending
      refine ih hok (List.forall_mem_append.2 ⟨List.forall_mem_map.2 fun k hk => ?_, hchain⟩) hrest
      exact hfound k (Option.mem_toList.1 hk)

theorem forall_of_ofSystem {P : Polynomial → Prop}
    (hP : ∀ (v : Variable) (f g : Polynomial), 0 < g.degree v → P f → P g → P (f.pseudoRemainder g v))
    (hok : ofSystem limit system = .ok t) (hsystem : ∀ k ∈ system, P k.polynomial) :
    (∀ e ∈ t.chain, P e.polynomial) ∧ ∀ q ∈ t.residual, P q :=
  forall_of_eliminate (t := {}) hP hok (fun _ he => nomatch he)
    fun k hk => hsystem k (List.mem_filter.1 hk).1

/-- Chain and residual polynomials are combinations of the hypotheses. -/
theorem mem_span_ofSystem (hok : ofSystem limit system = .ok t) :
    (∀ e ∈ t.chain, e.polynomial.toMv ∈ Polynomial.span system) ∧
      ∀ q ∈ t.residual, q.toMv ∈ Polynomial.span system :=
  forall_of_ofSystem (P := fun p => p.toMv ∈ Polynomial.span system)
    (fun v _ _ _ hf hg => Polynomial.toMv_pseudoRemainder_mem v hf hg) hok
    fun _ hk => Polynomial.toMv_mem_span hk

/-- What is told to be inconsistent has no zero in any field. -/
theorem not_vanishAt_of_isInconsistent {K : Type*} [Field K] [Algebra ℚ K] {σ : Variable → K}
    (hok : ofSystem limit system = .ok t) (h : t.isInconsistent = true) : ¬VanishAt σ system := by
  intro hσ
  obtain ⟨q, hq, hconstant⟩ := List.any_eq_true.1 h
  have hne := ((isTriangular_ofSystem hok).residual q hq).1
  exact Polynomial.valueAt_ne_zero_of_isConstant σ hconstant hne
    ((chainVanishAt_ofSystem hσ hok).2 q hq)

/-- How a triangular system stands to the system that it comes from. Its polynomials are combinations of
the hypotheses, and vanish with them; a nonzero constant among them leaves no common zero in any field. In
turn the hypotheses vanish with its polynomials, where no pivot of the run has an initial that does. -/
structure Preserves (limit : Int) (system : List Hypothesis) (t : Triangular) : Prop where
  chain : ∀ e ∈ t.chain, ∃ cs, cs.length = system.length ∧
    e.polynomial = Polynomial.combination cs system
  residual : ∀ q ∈ t.residual, ∃ cs, cs.length = system.length ∧ q = Polynomial.combination cs system
  vanish : ∀ (K : Type u) [Field K] [Algebra ℚ K] (σ : Variable → K), VanishAt σ system →
    t.ChainVanishAt σ ∧ ∀ q ∈ t.residual, q.valueAt σ = 0
  inconsistent : t.isInconsistent = true → ∀ (K : Type u) [Field K] [Algebra ℚ K] (σ : Variable → K),
    ¬VanishAt σ system
  converse : ∀ (K : Type u) [Field K] [Algebra ℚ K] (σ : Variable → K), t.ChainVanishAt σ →
    (∀ q ∈ t.residual, q.valueAt σ = 0) →
      (∀ g ∈ pivotsOf limit system, (g.2.initial g.1).valueAt σ ≠ 0) → VanishAt σ system

/-- Triangulation preserves the common zeros. -/
theorem preserves_ofSystem (hok : ofSystem limit system = .ok t) : Preserves.{u} limit system t :=
  { chain := fun e he => Polynomial.exists_combination_of_mem_span ((mem_span_ofSystem hok).1 e he)
    residual := fun q hq => Polynomial.exists_combination_of_mem_span ((mem_span_ofSystem hok).2 q hq)
    vanish := fun _ _ _ _ hσ => chainVanishAt_ofSystem hσ hok
    inconsistent := fun h _ _ _ _ => not_vanishAt_of_isInconsistent hok h
    converse := fun _ _ _ _ hchain hresidual => vanishAt_of_ofSystem hok hchain hresidual }

/-- A circle about the origin and two lines. -/
def circleSystem : List Hypothesis :=
  let u (i : Int) := Polynomial.ofVariable (.free i)
  let x (i : Int) := Polynomial.ofVariable (.dependent i)
  [⟨x 1 * x 1 + x 2 * x 2 - u 1, "circle"⟩, ⟨x 2 - u 2 * x 1, "line"⟩, ⟨x 2 + x 1 - u 3, "line"⟩]

def circleTriangular : Triangular := ((ofSystem 100 circleSystem).toOption).getD {}

theorem ofSystem_circleSystem : ofSystem 100 circleSystem = .ok circleTriangular := by decide +kernel

theorem preserves_circleSystem : ofSystem 100 circleSystem = .ok circleTriangular ∧
    circleTriangular.vars = [.dependent 1, .dependent 2] ∧ circleTriangular.residual.length = 1 ∧
      Preserves.{u} 100 circleSystem circleTriangular :=
  ⟨ofSystem_circleSystem, by decide +kernel, by decide +kernel,
    preserves_ofSystem ofSystem_circleSystem⟩

end Triangular
end Planimetry
