import Planimetry.Proofs.Triangular.Ideal
import Planimetry.Proofs.Verdict

/-! Negative verdicts by triangulation: a remainder in free variables that does not vanish, and when it
shows that the statement does not follow. -/

universe u

namespace Planimetry

theorem exists_mem_of_forall₂ {α β : Type} {R : α → β → Prop} {xs : List α} {ys : List β}
    (h : List.Forall₂ R xs ys) {y : β} (hy : y ∈ ys) : ∃ x ∈ xs, R x y := by
  induction h with
  | nil => cases hy
  | cons hxy _ ih =>
      rcases List.mem_cons.1 hy with rfl | hy
      · exact ⟨_, List.mem_cons_self, hxy⟩
      · obtain ⟨x, hx, hxy⟩ := ih hy
        exact ⟨x, List.mem_cons_of_mem _ hx, hxy⟩

namespace Polynomial

theorem isDependent_eq_false_of_leadingVariable {p : Polynomial} (h : p.leadingVariable = none)
    {v : Variable} (hv : v ∈ p.vars) : v.isDependent = false := by
  have hnil := List.getLast?_eq_none_iff.1 h
  simpa using List.filter_eq_nil_iff.1 hnil v hv

end Polynomial

namespace Protocol

variable {p : Protocol} {settings : Settings} {f : Finished} {t : Transformation}
  {statements remainders : List Polynomial} {system : Triangular}

theorem verdict_holds_ne (method : String) (conditions : List Nondegeneracy) :
    (ProofResult.holds method conditions).verdict ≠ .doesNotHold := by
  unfold ProofResult.holds
  dsimp only
  split <;> nofun

/-- A negative verdict is that on the first remainder that does not vanish, and this has free variables only. -/
theorem concludeWu_eq_refuted (h : (concludeWu settings t system remainders).outcome = .ok f)
    (hverdict : f.result.verdict = .doesNotHold) :
    ∃ r ∈ remainders, r ≠ 0 ∧ r.leadingVariable = none ∧
      f.result = (ProofResult.refuted "wu" r settings).1 := by
  unfold concludeWu at h
  dsimp only at h
  split at h
  next =>
    cases h
    cases hverdict
  next =>
    split at h
    next r hr =>
      split at h
      next =>
        cases h
        cases hverdict
      next hleading =>
        cases h
        refine ⟨r, List.mem_of_find?_eq_some hr, fun hzero => ?_, ?_, rfl⟩
        · have hne := List.find?_some hr
          rw [Sparse.isZero_iff.2 hzero] at hne
          cases hne
        · exact Option.not_isSome_iff_eq_none.1 hleading
    next =>
      unfold concludeHolds at h
      split at h
      next => cases h
      next conditions _ _ =>
        cases h
        exact absurd hverdict (verdict_holds_ne "wu" conditions)

/-- A statement does not hold if the first remainder that does not vanish has free variables only. -/
theorem concludeWu_of_doesNotHold (h : (concludeWu settings t system remainders).outcome = .ok f)
    (hverdict : f.result.verdict = .doesNotHold) :
    ∃ r ∈ remainders, r ≠ 0 ∧ r.leadingVariable = none ∧ f.result.remainder = some r := by
  obtain ⟨r, hr, hne, hleading, hresult⟩ := concludeWu_eq_refuted h hverdict
  exact ⟨r, hr, hne, hleading, hresult ▸ rfl⟩

/-- A statement cannot vanish at a common zero of the hypotheses at which its remainder does not. -/
theorem Triangulates.exists_valueAt_ne_zero {K : Type*} [Field K] [Algebra ℚ K] {σ : Variable → K}
    (h : p.Triangulates settings t statements system remainders) {r : Polynomial}
    (hr : r ∈ remainders) (hσ : VanishAt σ t.system) (hne : r.valueAt σ ≠ 0) :
    ∃ s ∈ statements, s.valueAt σ ≠ 0 := by
  obtain ⟨s, hs, hreduce⟩ := exists_mem_of_forall₂ (forall₂_of_mapM h.remainders_eq) hr
  obtain ⟨hchain, -⟩ := Triangular.chainVanishAt_ofSystem hσ h.system_eq
  obtain ⟨c, hc, -⟩ := Triangular.exists_mul_eq_reduce hchain hreduce
  refine ⟨s, hs, fun hzero => hne ?_⟩
  rw [← hc, hzero, mul_zero]

/-- A negative verdict tells of a remainder that is nonzero only where the statement is. It refutes the
statement, unless a power of the product of the remainder and all initials that triangulation divides by lies
in the ideal of the chain and the residual polynomials; and it does so in every algebraically closed field if
nothing is left besides the chain and these initials are regular there. -/
theorem exists_valueAt_ne_zero_of_doesNotHold_proveWu (h : (p.proveWu settings).outcome = .ok f)
    (hverdict : f.result.verdict = .doesNotHold) :
    ∃ t statements system remainders r, p.Triangulates settings t statements system remainders ∧
      f.result.remainder = some r ∧
      (∀ (K : Type u) [Field K] [CharZero K] (σ : Variable → K),
        VanishAt σ t.system → r.valueAt σ ≠ 0 → ∃ s ∈ statements, s.valueAt σ ≠ 0) ∧
      ((Polynomial.product (r ::
          (Triangular.pivotsOf settings.maxTerms t.system).map fun g => g.2.initial g.1)).toMv ∉
            system.ideal.radical →
        ∃ (K : Type) (_ : Field K) (_ : CharZero K) (_ : IsAlgClosed K) (σ : Variable → K),
          VanishAt σ t.system ∧ ∃ s ∈ statements, s.valueAt σ ≠ 0) ∧
      (system.residual = [] →
        (∀ g ∈ Triangular.pivotsOf settings.maxTerms t.system,
          system.IsRegularAt g.1 (g.2.initial g.1)) →
        ∀ (K : Type u) [Field K] [CharZero K] [IsAlgClosed K],
          ∃ σ : Variable → K, VanishAt σ t.system ∧ ∃ s ∈ statements, s.valueAt σ ≠ 0) := by
  have hsettled : f.result.verdict ≠ .inconclusive := by
    rw [hverdict]
    exact nofun
  obtain ⟨t, statements, system, remainders, htriangulates, hconclude⟩ := proveWu_eq_ok h hsettled
  obtain ⟨r, hr, hne, hleading, hremainder⟩ := concludeWu_of_doesNotHold hconclude hverdict
  refine ⟨t, statements, system, remainders, r, htriangulates, hremainder, ?_, ?_, ?_⟩
  · intro K _ _ σ hσ hvalue
    exact htriangulates.exists_valueAt_ne_zero hr hσ hvalue
  · intro hradical
    obtain ⟨K, _, _, _, σ, hchain, hresidual, hnonzero⟩ := Triangular.exists_zero_of_notMem_radical hradical
    obtain ⟨hvalue, hinitials⟩ := List.forall_mem_cons.1 hnonzero
    have hσ : VanishAt σ t.system :=
      Triangular.vanishAt_of_ofSystem htriangulates.system_eq hchain hresidual fun g hg =>
        hinitials _ (List.mem_map.2 ⟨g, hg, rfl⟩)
    exact ⟨K, inferInstance, inferInstance, inferInstance, σ, hσ,
      htriangulates.exists_valueAt_ne_zero hr hσ hvalue⟩
  · intro hresidual hregular K _ _ _
    have hfree : ∀ w ∈ r.vars, w ∉ system.vars := by
      intro w hw hmem
      have hdependent := Triangular.isDependent_of_mem_vars htriangulates.system_eq hmem
      rw [Polynomial.isDependent_eq_false_of_leadingVariable hleading hw] at hdependent
      cases hdependent
    obtain ⟨σ, hσ, hvalue⟩ := Triangular.exists_vanishAt (K := K) htriangulates.system_eq hresidual
      hregular hne hfree
    exact ⟨σ, hσ, htriangulates.exists_valueAt_ne_zero hr hσ hvalue⟩

/-- Two lines that meet, with the intersection stated to be on a third line. -/
def crossFigure : Protocol :=
  figure [("A", .point .free), ("B", .point .free), ("C", .point .free), ("D", .point .free),
    ("l", .set (.lineThrough "A" "B")), ("k", .set (.lineThrough "C" "D")),
    ("P", .point (.intersection "l" "k")), ("s", .statement (.collinear "A" "C" "P"))]

def crossPass : Transformation := (crossFigure.startWu {}).run.2

def crossSystem : Triangular := ((Triangular.ofSystem 20000 crossPass.system).toOption).getD {}

set_option maxRecDepth 100000 in
theorem verdict_crossFigure :
    ((crossFigure.proveWu {}).outcome.toOption.any fun f => f.result.verdict = .doesNotHold) =
      true := by
  decide +kernel

set_option maxRecDepth 100000 in
theorem residual_crossSystem : crossSystem.residual = [] := by decide +kernel

set_option maxRecDepth 100000 in
theorem free_crossSystem : ∀ g ∈ Triangular.pivotsOf 20000 crossPass.system,
    g.2.initial g.1 ≠ 0 ∧ ∀ w ∈ (g.2.initial g.1).vars, w ∉ crossSystem.vars := by
  decide +kernel

theorem exists_valueAt_ne_zero_crossFigure : ∃ f, (crossFigure.proveWu {}).outcome = .ok f ∧
    f.result.verdict = .doesNotHold ∧ ∃ statements,
      Transformation.statementPolynomials crossPass.protocol = .ok statements ∧
      ∀ (K : Type) [Field K] [CharZero K] [IsAlgClosed K],
        ∃ σ : Variable → K, VanishAt σ crossPass.system ∧ ∃ s ∈ statements, s.valueAt σ ≠ 0 := by
  have hrun := verdict_crossFigure
  cases hf : (crossFigure.proveWu {}).outcome with
  | error e =>
      rw [hf] at hrun
      cases hrun
  | ok f =>
      rw [hf] at hrun
      have hverdict : f.result.verdict = .doesNotHold := of_decide_eq_true hrun
      obtain ⟨t, statements, system, remainders, r, h, -, -, -, hexists⟩ :=
        exists_valueAt_ne_zero_of_doesNotHold_proveWu hf hverdict
      have ht : crossPass = t := congr_arg Prod.snd h.run
      subst ht
      have hsystem : crossSystem = system := by
        have heq := h.system_eq
        unfold crossSystem
        rw [show Triangular.ofSystem 20000 crossPass.system = .ok system from heq]
        rfl
      subst hsystem
      refine ⟨f, rfl, hverdict, statements, h.statements_eq, hexists residual_crossSystem ?_⟩
      intro g hg
      obtain ⟨hne, hvars⟩ := free_crossSystem g hg
      exact Triangular.isRegularAt_of_vars hne hvars

/-- A negative verdict although the statement vanishes at every common zero of the hypotheses. -/
def IsRefutedInVain (p : Protocol) (settings : Settings) : Prop :=
  ∃ f t statements, (p.proveWu settings).outcome = .ok f ∧ f.result.verdict = .doesNotHold ∧
    (p.startWu settings).run = (none, t) ∧
    Transformation.statementPolynomials t.protocol = .ok statements ∧
    ∀ (K : Type u) [Field K] [CharZero K] (σ : Variable → K),
      VanishAt σ t.system → ∀ s ∈ statements, s.valueAt σ = 0

/-- A negative verdict on a statement that is a combination of the hypotheses. -/
def refutesCombination (p : Protocol) (settings : Settings) (cs : List Polynomial) : Bool :=
  match (p.proveWu settings).outcome, (p.startWu settings).run with
  | .ok f, (none, t) =>
    f.result.verdict = .doesNotHold &&
      (Transformation.statementPolynomials t.protocol).toOption =
        some [Polynomial.combination cs t.system]
  | _, _ => false

theorem isRefutedInVain_of_combination {cs : List Polynomial}
    (h : p.refutesCombination settings cs = true) : p.IsRefutedInVain settings := by
  unfold refutesCombination at h
  split at h
  next f t hf ht =>
    rw [Bool.and_eq_true, decide_eq_true_iff, decide_eq_true_iff] at h
    obtain ⟨hverdict, hstatements⟩ := h
    cases hs : Transformation.statementPolynomials t.protocol with
    | error e =>
        rw [hs] at hstatements
        cases hstatements
    | ok statements =>
        rw [hs] at hstatements
        refine ⟨f, t, statements, hf, hverdict, ht, hs, fun K _ _ σ hσ s hmem => ?_⟩
        rw [Option.some.inj hstatements, List.mem_singleton] at hmem
        rw [hmem]
        exact Polynomial.valueAt_combination hσ
  next => cases h

/-- A line and a parallel to it, with a point on both. -/
def parallelFigure : Protocol :=
  figure [("A", .point .free), ("B", .point .free), ("C", .point .free),
    ("l", .set (.lineThrough "A" "B")), ("m", .set (.parallel "C" "l")),
    ("P", .point (.intersection "l" "m")), ("s", .statement (.collinear "A" "B" "C"))]

/-- A side of a triangle and the line through the midpoints of the others, with a point on both. -/
def midlineFigure : Protocol :=
  figure [("A", .point .free), ("B", .point .free), ("C", .point .free),
    ("M", .point (.midpoint "A" "C")), ("N", .point (.midpoint "B" "C")),
    ("l", .set (.lineThrough "A" "B")), ("k", .set (.lineThrough "M" "N")),
    ("P", .point (.intersection "l" "k")), ("s", .statement (.collinear "A" "B" "C"))]

/-- The coefficients by which the statement on the triangle is a combination of its hypotheses. -/
def midlineCoefficients : List Polynomial :=
  let c (a : Rat) := Polynomial.constant a
  let u (i : Int) := Polynomial.ofVariable (.free i)
  let x (i : Int) := Polynomial.ofVariable (.dependent i)
  [c 2 * (x 4 - x 6), c 2 * (x 5 - x 3), c 2 * x 6 - u 2 - u 6, u 1 + u 5 - c 2 * x 5, c 2, c (-4)]

set_option maxRecDepth 100000 in
/-- Neither a residual nor an initial that vanishes on the chain keeps a statement from being refuted
that does follow. -/
theorem isRefutedInVain_figures :
    (Appended parallelFigure ∧ IsRefutedInVain.{u} parallelFigure {}) ∧
      (Appended midlineFigure ∧ IsRefutedInVain.{u} midlineFigure {}) := by
  have hparallel : parallelFigure.refutesCombination {} [1, 1] = true := by decide +kernel
  have hmidline : midlineFigure.refutesCombination {} midlineCoefficients = true := by decide +kernel
  exact ⟨⟨appended_figure _, isRefutedInVain_of_combination hparallel⟩,
    ⟨appended_figure _, isRefutedInVain_of_combination hmidline⟩⟩

end Protocol
end Planimetry
