import Planimetry.Proofs.Refutation

/-! When a proof by triangulation is not vacuous: the hypotheses and the conditions told with the verdict
have a common solution, unless the initials that triangulation divides by, or the factors that renaming
divides by, vanish together on the chain. -/

universe u

namespace Planimetry

namespace Polynomial

theorem exists_mem_vars_of_product {ps : List Polynomial} {v : Variable}
    (h : v ∈ (product ps).vars) : ∃ p ∈ ps, v ∈ p.vars := by
  induction ps with
  | nil => exact absurd h (Template.hasVars_one (P := fun _ => False) v)
  | cons p ps ih =>
      rcases mem_vars_mul (q := product ps) h with h | h
      · exact ⟨p, List.mem_cons_self, h⟩
      · obtain ⟨q, hq, hv⟩ := ih h
        exact ⟨q, List.mem_cons_of_mem _ hq, hv⟩

end Polynomial

namespace Triangular

variable {t : Triangular} {q : Polynomial}

/-- Modulo the chain, a multiple of the polynomial is a nonzero polynomial in variables that the chain does
not eliminate. -/
def IsRegular (t : Triangular) (q : Polynomial) : Prop :=
  ∃ h : Polynomial, h ≠ 0 ∧ (∀ w ∈ h.vars, w ∉ t.vars) ∧
    h.toMv ∈ Ideal.span ({q.toMv} ∪ {f | ∃ e ∈ t.chain, f = e.polynomial.toMv})

theorem IsRegularAt.isRegular {v : Variable} (h : t.IsRegularAt v q) : t.IsRegular q := by
  obtain ⟨r, hr, hfree, hmem⟩ := h
  refine ⟨r, hr, hfree, Ideal.span_mono (Set.union_subset_union_right _ ?_) hmem⟩
  rintro f ⟨e, he, -, rfl⟩
  exact ⟨e, he, rfl⟩

theorem valueAt_ne_zero_of_isRegular {K : Type*} [Field K] [Algebra ℚ K] {σ : Variable → K}
    {h : Polynomial}
    (hmem : h.toMv ∈ Ideal.span ({q.toMv} ∪ {f | ∃ e ∈ t.chain, f = e.polynomial.toMv}))
    (hchain : t.ChainVanishAt σ) (hh : h.valueAt σ ≠ 0) : q.valueAt σ ≠ 0 := by
  intro hq
  refine hh (aeval_eq_zero_of_mem_span hmem fun g hg => ?_)
  rcases hg with hg | ⟨e, he, rfl⟩
  · rw [Set.mem_singleton_iff.1 hg]
    exact hq
  · exact hchain e he

end Triangular

namespace Protocol

variable {p : Protocol} {settings : Settings} {f : Finished} {t : Transformation}
  {statements remainders : List Polynomial} {system : Triangular}

/-- The polynomials that a proof divides by: initials in triangulation, factors in renaming. -/
def divisors (settings : Settings) (t : Transformation) : List Polynomial :=
  (Triangular.pivotsOf settings.maxTerms t.system).map (fun g => g.2.initial g.1) ++
    t.factors.map Hypothesis.polynomial

/-- The hypotheses of a pass hold at an assignment, and so do the conditions told with a verdict. -/
structure IsModel {K : Type*} [Field K] [Algebra ℚ K] (t : Transformation)
    (conditions : List Nondegeneracy) (σ : Variable → K) : Prop where
  system : VanishAt σ t.system
  conditions : ∀ n ∈ conditions, n.polynomial.valueAt σ ≠ 0

/-- The conditions told with a proof are initials of the chain or factors of renamings. -/
theorem mem_of_explainAll {ns : List Nondegeneracy} {events : List Event}
    (h : t.protocol.explainAll settings.maxNdgPoints
      (system.initials ++ t.factors.map Hypothesis.polynomial) = (.ok ns, events)) :
    ∀ n ∈ ns, (∃ e ∈ system.chain, n.polynomial = e.initial) ∨
      ∃ k ∈ t.factors, n.polynomial = k.polynomial := by
  intro n hn
  rcases List.mem_append.1 ((mem_of_explainOnto h n hn).resolve_left (fun h => nomatch h)) with hn | hn
  · obtain ⟨e, he, heq⟩ := List.mem_map.1 hn
    exact .inl ⟨e, he, heq.symm⟩
  · obtain ⟨k, hk, heq⟩ := List.mem_map.1 hn
    exact .inr ⟨k, hk, heq.symm⟩

/-- What triangulation leaves, with all divisors nonzero, gives back the hypotheses. -/
theorem isModel_of_divisors {K : Type*} [Field K] [Algebra ℚ K] {σ : Variable → K}
    {ns : List Nondegeneracy} {events : List Event}
    (hok : Triangular.ofSystem settings.maxTerms t.system = .ok system)
    (hexplain : t.protocol.explainAll settings.maxNdgPoints
      (system.initials ++ t.factors.map Hypothesis.polynomial) = (.ok ns, events))
    (hchain : system.ChainVanishAt σ) (hresidual : ∀ q ∈ system.residual, q.valueAt σ = 0)
    (hdivisors : ∀ q ∈ divisors settings t, q.valueAt σ ≠ 0) : IsModel t ns σ := by
  unfold divisors at hdivisors
  obtain ⟨hpivots, hfactors⟩ := List.forall_mem_append.1 hdivisors
  have hinitial : ∀ g ∈ Triangular.pivotsOf settings.maxTerms t.system,
      (g.2.initial g.1).valueAt σ ≠ 0 := fun g hg =>
    hpivots _ (List.mem_map_of_mem (f := fun g : Variable × Polynomial => g.2.initial g.1) hg)
  refine ⟨Triangular.vanishAt_of_ofSystem hok hchain hresidual hinitial, fun n hn => ?_⟩
  rcases mem_of_explainAll hexplain n hn with ⟨e, he, heq⟩ | ⟨k, hk, heq⟩
  · rw [heq]
    exact hinitial (e.eliminated, e.polynomial) (Triangular.mem_pivotsOf hok he)
  · rw [heq]
    exact hfactors _ (List.mem_map_of_mem hk)

/-- A proof has a model in some field, unless a power of the product of all divisors vanishes with the chain
and the residual polynomials for algebraic reasons. -/
theorem exists_isModel_of_notMem_radical {ns : List Nondegeneracy} {events : List Event}
    (hok : Triangular.ofSystem settings.maxTerms t.system = .ok system)
    (hexplain : t.protocol.explainAll settings.maxNdgPoints
      (system.initials ++ t.factors.map Hypothesis.polynomial) = (.ok ns, events))
    (h : (Polynomial.product (divisors settings t)).toMv ∉ system.ideal.radical) :
    ∃ (K : Type) (_ : Field K) (_ : Algebra ℚ K) (σ : Variable → K), IsModel t ns σ := by
  obtain ⟨K, _, _, _, σ, hchain, hresidual, hne⟩ := Triangular.exists_zero_of_notMem_radical h
  exact ⟨K, inferInstance, inferInstance, σ, isModel_of_divisors hok hexplain hchain hresidual hne⟩

/-- A proof has a model in every algebraically closed field if nothing is left besides the chain and all
divisors are regular there. -/
theorem exists_isModel_of_isRegular {K : Type*} [Field K] [CharZero K] [IsAlgClosed K]
    {ns : List Nondegeneracy} {events : List Event}
    (hok : Triangular.ofSystem settings.maxTerms t.system = .ok system)
    (hexplain : t.protocol.explainAll settings.maxNdgPoints
      (system.initials ++ t.factors.map Hypothesis.polynomial) = (.ok ns, events))
    (hresidual : system.residual = [])
    (hregular : ∀ g ∈ Triangular.pivotsOf settings.maxTerms t.system,
      system.IsRegularAt g.1 (g.2.initial g.1))
    (hfactors : ∀ k ∈ t.factors, system.IsRegular k.polynomial) :
    ∃ σ : Variable → K, IsModel t ns σ := by
  have hdivisors : ∀ q ∈ divisors settings t, system.IsRegular q := by
    unfold divisors
    refine List.forall_mem_append.2 ⟨List.forall_mem_map.2 fun g hg => ?_, ?_⟩
    · exact (hregular g hg).isRegular
    · exact List.forall_mem_map.2 hfactors
  choose! shown hshown using hdivisors
  -- One polynomial in the free variables that takes care of all divisors at once.
  have hne : Polynomial.product ((divisors settings t).map shown) ≠ 0 :=
    Polynomial.product_ne_zero (List.forall_mem_map.2 fun q hq => (hshown q hq).1)
  have hfree : ∀ w ∈ (Polynomial.product ((divisors settings t).map shown)).vars, w ∉ system.vars := by
    intro w hw
    obtain ⟨r, hr, hwr⟩ := Polynomial.exists_mem_vars_of_product hw
    obtain ⟨q, hq, rfl⟩ := List.mem_map.1 hr
    exact (hshown q hq).2.1 w hwr
  obtain ⟨σ, hσ, hvalue⟩ := Triangular.exists_vanishAt (K := K) hok hresidual hregular hne hfree
  obtain ⟨hchain, hleft⟩ := Triangular.chainVanishAt_ofSystem hσ hok
  refine ⟨σ, isModel_of_divisors hok hexplain hchain hleft fun q hq => ?_⟩
  refine Triangular.valueAt_ne_zero_of_isRegular (hshown q hq).2.2 hchain ?_
  exact Polynomial.valueAt_ne_zero_of_product hvalue _ (List.mem_map_of_mem hq)

/-- When a proof by triangulation is not vacuous. Its hypotheses and the conditions told with it have a
common solution in some field, unless a power of the product of all divisors lies in the ideal of the chain
and the residual polynomials; they have one in every algebraically closed field of characteristic zero if
nothing is left besides the chain and all divisors are regular there. -/
theorem exists_isModel_of_isProved_proveWu (h : (p.proveWu settings).outcome = .ok f)
    (hproved : f.result.isProved = true) :
    ∃ t statements system remainders, p.Triangulates settings t statements system remainders ∧
      ((Polynomial.product (divisors settings t)).toMv ∉ system.ideal.radical →
        ∃ (K : Type) (_ : Field K) (_ : Algebra ℚ K) (σ : Variable → K),
          IsModel t f.result.conditions σ) ∧
      (system.residual = [] →
        (∀ g ∈ Triangular.pivotsOf settings.maxTerms t.system,
          system.IsRegularAt g.1 (g.2.initial g.1)) →
        (∀ k ∈ t.factors, system.IsRegular k.polynomial) →
        ∀ (K : Type u) [Field K] [CharZero K] [IsAlgClosed K],
          ∃ σ : Variable → K, IsModel t f.result.conditions σ) := by
  have hverdict : f.result.verdict ≠ .inconclusive := by
    intro heq
    unfold ProofResult.isProved at hproved
    rw [heq] at hproved
    cases hproved
  obtain ⟨t, statements, system, remainders, htriangulates, hconclude⟩ := proveWu_eq_ok h hverdict
  obtain ⟨-, events, hexplain⟩ := concludeWu_of_isProved hconclude hproved
  refine ⟨t, statements, system, remainders, htriangulates, ?_, ?_⟩
  · exact exists_isModel_of_notMem_radical htriangulates.system_eq hexplain
  · intro hresidual hregular hfactors K _ _ _
    exact exists_isModel_of_isRegular htriangulates.system_eq hexplain hresidual hregular hfactors

/-- Triangulation leaves nothing besides the chain, and all divisors have free variables only. -/
def hasFreeDivisors (p : Protocol) (settings : Settings) : Bool :=
  match (p.startWu settings).run with
  | (some _, _) => false
  | (none, t) => match Triangular.ofSystem settings.maxTerms t.system with
    | .error _ => false
    | .ok system => system.residual.isEmpty &&
        (divisors settings t).all fun q => !q.isZero && q.vars.all fun w => !system.vars.contains w

theorem Triangulates.isRegular_of_hasFreeDivisors
    (h : p.Triangulates settings t statements system remainders)
    (hfree : p.hasFreeDivisors settings = true) :
    system.residual = [] ∧ (∀ g ∈ Triangular.pivotsOf settings.maxTerms t.system,
      system.IsRegularAt g.1 (g.2.initial g.1)) ∧ ∀ k ∈ t.factors, system.IsRegular k.polynomial := by
  unfold hasFreeDivisors at hfree
  simp only [h.run, h.system_eq] at hfree
  rw [Bool.and_eq_true, List.isEmpty_iff, List.all_eq_true] at hfree
  obtain ⟨hresidual, hdivisors⟩ := hfree
  have hregular (v : Variable) {q : Polynomial} (hq : q ∈ divisors settings t) :
      system.IsRegularAt v q := by
    have hboth := hdivisors q hq
    rw [Bool.and_eq_true, Bool.not_eq_true', List.all_eq_true] at hboth
    refine Triangular.isRegularAt_of_vars (fun hzero => ?_) fun w hw hmem => ?_
    · rw [Sparse.isZero_iff.2 hzero] at hboth
      cases hboth.1
    · have hnot := hboth.2 w hw
      rw [List.contains_iff_mem.2 hmem] at hnot
      cases hnot
  refine ⟨hresidual, fun g hg => hregular g.1 (List.mem_append_left _ (List.mem_map.2 ⟨g, hg, rfl⟩)),
    fun k hk => (hregular (.free 0) (List.mem_append_right _ (List.mem_map_of_mem hk))).isRegular⟩

set_option maxRecDepth 100000 in
theorem proves_footFigure : (footFigure.hasFreeDivisors {} &&
    (footFigure.proveWu {}).outcome.toOption.any fun f => f.result.isProved) = true := by
  decide +kernel

theorem exists_isModel_footFigure : ∃ f t, (footFigure.proveWu {}).outcome = .ok f ∧
    f.result.isProved = true ∧ (footFigure.startWu {}).run = (none, t) ∧
    ∀ (K : Type) [Field K] [CharZero K] [IsAlgClosed K],
      ∃ σ : Variable → K, IsModel t f.result.conditions σ := by
  obtain ⟨hfree, hrun⟩ := Bool.and_eq_true_iff.1 proves_footFigure
  cases hf : (footFigure.proveWu {}).outcome with
  | error e =>
      rw [hf] at hrun
      cases hrun
  | ok f =>
      rw [hf] at hrun
      obtain ⟨t, statements, system, remainders, h, -, hexists⟩ :=
        exists_isModel_of_isProved_proveWu hf hrun
      obtain ⟨hresidual, hregular, hfactors⟩ := h.isRegular_of_hasFreeDivisors hfree
      exact ⟨f, t, rfl, hrun, h.run, hexists hresidual hregular hfactors⟩

/-- A statement is proved, but some condition told with it vanishes wherever the hypotheses do. -/
def IsProvedInVain (p : Protocol) (settings : Settings) : Prop :=
  ∃ f t, (p.proveWu settings).outcome = .ok f ∧ f.result.isProved = true ∧
    (p.startWu settings).run = (none, t) ∧
    ∀ (K : Type u) [Field K] [Algebra ℚ K] (σ : Variable → K), ¬IsModel t f.result.conditions σ

/-- A statement is proved under a condition that is a combination of the hypotheses. -/
def provesCombination (p : Protocol) (settings : Settings) (cs : List Polynomial) : Bool :=
  match (p.proveWu settings).outcome, (p.startWu settings).run with
  | .ok f, (none, t) => f.result.isProved &&
      f.result.conditions.any fun n => n.polynomial = Polynomial.combination cs t.system
  | _, _ => false

theorem isProvedInVain_of_combination (cs : List Polynomial)
    (h : p.provesCombination settings cs = true) : p.IsProvedInVain settings := by
  unfold provesCombination at h
  split at h
  next f t hf ht =>
    rw [Bool.and_eq_true, List.any_eq_true] at h
    obtain ⟨hproved, n, hn, heq⟩ := h
    refine ⟨f, t, hf, hproved, ht, fun K _ _ σ hσ => hσ.conditions n hn ?_⟩
    rw [of_decide_eq_true heq]
    exact Polynomial.valueAt_combination hσ.system
  next => cases h

/-- A side of a triangle and the line through the midpoints of the others, with a point on both that is
stated to be on the side. -/
def sideFigure : Protocol :=
  figure [("A", .point .free), ("B", .point .free), ("C", .point .free),
    ("M", .point (.midpoint "A" "C")), ("N", .point (.midpoint "B" "C")),
    ("l", .set (.lineThrough "A" "B")), ("k", .set (.lineThrough "M" "N")),
    ("P", .point (.intersection "l" "k")), ("s", .statement (.collinear "A" "B" "P"))]

/-- The coefficients by which the hypotheses say that side and midline are parallel. -/
def sideCoefficients : List Polynomial :=
  let u (i : Int) := Polynomial.ofVariable (.free i)
  let half (q : Polynomial) := q.scale (1 / 2)
  [half (u 2 - u 4), half (u 3 - u 1), half (u 4 - u 2), half (u 1 - u 3)]

set_option maxRecDepth 100000 in
/-- The conditions of a proof may contradict the construction: here that two lines are not parallel which
are so by construction. -/
theorem isProvedInVain_sideFigure : Appended sideFigure ∧ IsProvedInVain.{u} sideFigure {} :=
  ⟨appended_figure _, isProvedInVain_of_combination sideCoefficients (by decide +kernel)⟩

end Protocol
end Planimetry
