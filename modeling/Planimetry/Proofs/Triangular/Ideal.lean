import Mathlib.Algebra.Algebra.Hom.Rat
import Mathlib.FieldTheory.IsAlgClosed.AlgebraicClosure
import Mathlib.RingTheory.Ideal.Quotient.Operations
import Mathlib.RingTheory.Localization.FractionRing
import Planimetry.Proofs.Triangular.Combination

/-! The ideal of a triangular system: it has a zero in some field at which given polynomials do not vanish,
unless a power of their product is one of its members. -/

namespace Planimetry

namespace Polynomial

/-- A prime ideal is what some assignment in an algebraically closed field makes vanish. -/
theorem exists_aeval_eq_zero_iff (P : Ideal (MvPolynomial Variable ℚ)) [P.IsPrime] :
    ∃ (K : Type) (_ : Field K) (_ : CharZero K) (_ : IsAlgClosed K) (σ : Variable → K),
      ∀ f, MvPolynomial.aeval σ f = 0 ↔ f ∈ P := by
  let A := MvPolynomial Variable ℚ ⧸ P
  let K := AlgebraicClosure (FractionRing A)
  have hinjective : Function.Injective (algebraMap A K) := by
    rw [IsScalarTower.algebraMap_eq A (FractionRing A) K]
    exact (algebraMap (FractionRing A) K).injective.comp (IsFractionRing.injective A _)
  have hzero : CharZero K := algebraRat.charZero K
  let φ : MvPolynomial Variable ℚ →+* K := (algebraMap A K).comp (Ideal.Quotient.mk P)
  refine ⟨K, inferInstance, hzero, inferInstance, fun v => φ (MvPolynomial.X v), fun f => ?_⟩
  have hhom : MvPolynomial.aeval (fun v => φ (MvPolynomial.X v)) = φ.toRatAlgHom :=
    MvPolynomial.algHom_ext fun v => MvPolynomial.aeval_X _ v
  rw [hhom]
  exact (map_eq_zero_iff _ hinjective).trans Ideal.Quotient.eq_zero_iff_mem

/-- An ideal has a zero in some algebraically closed field at which a given polynomial does not vanish, unless
it contains a power of it. -/
theorem exists_zero_of_notMem_radical {I : Ideal (MvPolynomial Variable ℚ)} {g : MvPolynomial Variable ℚ}
    (h : g ∉ I.radical) :
    ∃ (K : Type) (_ : Field K) (_ : CharZero K) (_ : IsAlgClosed K) (σ : Variable → K),
      (∀ f ∈ I, MvPolynomial.aeval σ f = 0) ∧ MvPolynomial.aeval σ g ≠ 0 := by
  rw [Ideal.radical_eq_sInf, Submodule.mem_sInf] at h
  push Not at h
  obtain ⟨P, ⟨hle, hprime⟩, hg⟩ := h
  obtain ⟨K, _, _, _, σ, hσ⟩ := exists_aeval_eq_zero_iff P
  exact ⟨K, inferInstance, inferInstance, inferInstance, σ, fun f hf => (hσ f).2 (hle hf), mt (hσ g).1 hg⟩

end Polynomial

namespace Triangular

/-- All polynomials that vanish with the chain and the residual polynomials for algebraic reasons. -/
noncomputable def ideal (t : Triangular) : Ideal (MvPolynomial Variable ℚ) :=
  Ideal.span {f | (∃ e ∈ t.chain, f = e.polynomial.toMv) ∨ ∃ q ∈ t.residual, f = q.toMv}

/-- What triangulation leaves has a zero at which some polynomials do not vanish, unless it makes a power of
their product vanish for algebraic reasons. -/
theorem exists_zero_of_notMem_radical {t : Triangular} {ps : List Polynomial}
    (h : (Polynomial.product ps).toMv ∉ t.ideal.radical) :
    ∃ (K : Type) (_ : Field K) (_ : CharZero K) (_ : IsAlgClosed K) (σ : Variable → K),
      t.ChainVanishAt σ ∧ (∀ q ∈ t.residual, q.valueAt σ = 0) ∧ ∀ p ∈ ps, p.valueAt σ ≠ 0 := by
  obtain ⟨K, _, _, _, σ, hzero, hne⟩ := Polynomial.exists_zero_of_notMem_radical h
  refine ⟨K, inferInstance, inferInstance, inferInstance, σ, fun e he => ?_, fun q hq => ?_, ?_⟩
  · exact hzero _ (Ideal.subset_span (.inl ⟨e, he, rfl⟩))
  · exact hzero _ (Ideal.subset_span (.inr ⟨q, hq, rfl⟩))
  · exact Polynomial.valueAt_ne_zero_of_product hne

end Triangular
end Planimetry
