import Planimetry.Proofs.Area.FreeCoordinates
import Planimetry.Proofs.Counterexample
import Planimetry.Proofs.Refutation
import Planimetry.Proofs.Transformation.Known
import Planimetry.Proofs.Triangular.Reduction

/-! Negative verdicts come with evidence: a remainder in free variables that is not zero, and the first of the
seeded draws at which it does not vanish if there is one. -/

namespace Planimetry

namespace Triangular

variable {limit : Int} {es : List ChainEntry} {s r : Polynomial} {P : Polynomial → Prop}

/-- What remainders inherit from dividend and divisor passes from the statement and the chain to the last
remainder. -/
theorem forall_of_reduceThrough
    (hP : ∀ (v : Variable) (f g : Polynomial), 0 < g.degree v → P f → P g → P (f.pseudoRemainder g v))
    (hproper : ∀ e ∈ es, 0 < e.polynomial.degree e.eliminated) (hes : ∀ e ∈ es, P e.polynomial)
    (hs : P s) (hok : reduceThrough limit es s = .ok r) : P r := by
  induction es generalizing s with
  | nil =>
      cases hok
      exact hs
  | cons e es ih =>
      obtain ⟨hpos, hproper⟩ := List.forall_mem_cons.1 hproper
      obtain ⟨he, hes⟩ := List.forall_mem_cons.1 hes
      unfold reduceThrough at hok
      split at hok
      next => exact ih hproper hes hs hok
      next =>
        obtain ⟨s', hs', hok⟩ := bind_eq_ok hok
        rw [limitedRemainder_ok hs'] at hok
        exact ih hproper hes (hP _ _ _ hpos hs he) hok

end Triangular

namespace Area.Prover

variable {m : Prover} {p : Protocol} {pass : Transformation} {s s' : Progress} {e : Expr}
  {q : Polynomial}

theorem Reads.readsOnly {k : Quantity} (h : m.Reads p k) : k.ReadsOnly (· ∈ m.context.freePoints) := by
  cases k with
  | ratio a b c d => trivial
  | area a b c =>
      intro l hl
      obtain ⟨xy, hxy⟩ := h l hl
      exact (freeCoordinates_eq_ok hxy).2
  | pythagoras a b c =>
      intro l hl
      obtain ⟨xy, hxy⟩ := h l hl
      exact (freeCoordinates_eq_ok hxy).2

/-- Only the coordinates of free points and the variables of free ratios are ever read. -/
theorem isFree_of_toPolynomial {form : Expansion} (hp : Appended p) (hpass : p.IsPass m.settings pass)
    (hm : m.Locates pass.protocol) (hform : e.normalForm = .ok form)
    (hs : s.Stands m.context p pass.protocol) (h : Returns (m.toPolynomial form) s q s') : q.IsFree := by
  obtain ⟨hreads, -⟩ := (requires_toPolynomial hp hpass hform hs).of_returns h
  obtain ⟨s₁, hplace, hsum⟩ := returns_toPolynomial h
  have hfree := completes_sumPolynomial hm Polynomial.isFree_zero (Expr.isOriented_normalForm hform)
    (fun t ht f hf => (hreads t ht f hf).readsOnly) (isFresh_placePoints hp hpass hplace hs).1
  exact (hfree.of_returns hsum).1

/-- The polynomial of a proof is in free variables, and the statement holds if it is zero. -/
theorem isFree_of_prove {settings : Settings} {statement : Option Statement} {events : List Event}
    {proof : Proof} (hp : Appended p)
    (h : Returns ((ofProtocol p settings).prove statement) { protocol := p, events } proof s')
    (hfails : proof.holds = false) : ∃ q, proof.polynomial = some q ∧ q ≠ 0 ∧ q.IsFree := by
  obtain ⟨pass, hpass⟩ := Protocol.exists_isPass hp settings
  obtain ⟨e, e', form, s₁, s₂, s₃, -, heliminate, hform, hkeeps, -, hverdict, -⟩ := exists_stages_prove h
  rcases hverdict with ⟨⟨-, hholds, -⟩, -⟩ | ⟨q, ⟨hq, hholds⟩, hpolynomial⟩
  · rw [hholds] at hfails
    cases hfails
  · refine ⟨q, hpolynomial, fun hzero => ?_, ?_⟩
    · rw [hholds, Sparse.isZero_iff.2 hzero] at hfails
      cases hfails
    · have hstands : s₂.Stands (ofProtocol p settings).context p pass.protocol :=
        hkeeps.stands ((keeps_eliminateConstructed heliminate).stands (.inl ⟨rfl, rfl⟩))
      exact isFree_of_toPolynomial hp hpass
        (locates_of_isPass hp hpass (Context.stemsFrom_ofProtocol p).free) hform hstands hq

end Area.Prover

/-- The evidence of a negative verdict: a remainder in free variables that is not zero, with a counterexample
unless it vanishes at all draws that are allowed. -/
structure ProofResult.HasEvidence (result : ProofResult) (settings : Settings) (r : Polynomial) : Prop where
  remainder : result.remainder = some r
  ne_zero : r ≠ 0
  isFree : r.IsFree
  counterexample : ∀ a, result.counterexample = some a →
    r.IsCounterexample settings.counterexampleAttempts 10 settings.counterexampleSeed a
  absent : result.counterexample = none → ∀ k : ℕ, k < settings.counterexampleAttempts →
    r.eval? (r.drawn 10 settings.counterexampleSeed k).values = some 0

namespace Protocol

variable {p : Protocol} {settings : Settings} {f : Finished} {t : Transformation} {method : String}
  {statement : Option Area.Statement} {statements remainders : List Polynomial} {system : Triangular}
  {r : Polynomial}

/-- The remainders of a statement are in variables that were given out. -/
theorem Triangulates.knows (h : p.Triangulates settings t statements system remainders) (hp : Appended p)
    (hr : r ∈ remainders) : ∀ v ∈ r.vars, t.protocol.Knows v := by
  have ht := h.isConsistent hp
  have hsystem : t.IsKnown := Transformation.IsKnown.advanceAll (t := p.startWu settings)
    (List.forall_mem_nil _) (isConsistent_startWu hp settings) hp.ordered h.run
  have hinherit (v : Variable) (f g : Polynomial) (hpos : 0 < g.degree v)
      (hf : ∀ w ∈ f.vars, t.protocol.Knows w) (hg : ∀ w ∈ g.vars, t.protocol.Knows w) :
      ∀ w ∈ (f.pseudoRemainder g v).vars, t.protocol.Knows w :=
    fun w hw => (Polynomial.mem_vars_pseudoRemainder hpos hw).elim (hf w) (hg w)
  obtain ⟨hchain, -⟩ := Triangular.forall_of_ofSystem (P := fun q => ∀ w ∈ q.vars, t.protocol.Knows w)
    hinherit h.system_eq hsystem
  obtain ⟨s, relation, q, -, hrelation, rfl, hq⟩ := h.statement hp
  obtain ⟨q', hq', hreduce⟩ := exists_mem_of_forall₂ (forall₂_of_mapM h.remainders_eq) hr
  obtain rfl := List.mem_singleton.1 hq'
  exact Triangular.forall_of_reduceThrough hinherit
    (fun e he => Triangular.isProper_ofSystem h.system_eq e (List.mem_reverse.1 he))
    (fun e he => hchain e (List.mem_reverse.1 he))
    (Transformation.knows_of_statement ht hrelation hq) hreduce

/-- A remainder without a leading variable is in free variables only. -/
theorem Triangulates.isFree (h : p.Triangulates settings t statements system remainders) (hp : Appended p)
    (hr : r ∈ remainders) (hleading : r.leadingVariable = none) : r.IsFree := by
  intro v hv
  have hknows := h.knows hp hr v hv
  have hdependent := Polynomial.isDependent_eq_false_of_leadingVariable hleading hv
  cases v with
  | free i => rfl
  | dependent i => cases hdependent
  | placeholder role axis => exact hknows.elim

/-- A negative verdict of the area method is that on the polynomial of a proof that fails. -/
theorem proveArea_eq_refuted (h : (p.proveArea settings statement).outcome = .ok f)
    (hverdict : f.result.verdict = .doesNotHold) :
    ∃ proof s', Area.Returns ((Area.Prover.ofProtocol p settings).prove statement)
        { protocol := p, events := (Area.Prover.ofProtocol p settings).context.events } proof s' ∧
      proof.holds = false ∧
      f.result = (ProofResult.refuted "area" (proof.polynomial.getD 0) settings).1 := by
  unfold proveArea at h
  unfold Area.Returns
  dsimp only [Attempt.after] at h
  generalize ((Area.Prover.ofProtocol p settings).prove statement).run
    { protocol := p, events := (Area.Prover.ofProtocol p settings).context.events } = result at h ⊢
  obtain ⟨e | proof, s'⟩ := result
  · dsimp only at h
    split at h
    next =>
      cases h
      cases hverdict
    next => cases h
  · dsimp only at h
    split at h
    next =>
      unfold concludeHolds at h
      split at h
      next => cases h
      next conditions _ _ =>
        cases h
        exact absurd hverdict (verdict_holds_ne "area" conditions)
    next hfails =>
      cases h
      exact ⟨proof, s', rfl, Bool.eq_false_iff.2 hfails, rfl⟩

/-- A negative verdict, whatever the method, is that on a remainder in free variables that is not zero. -/
theorem exists_refuted (hp : Appended p)
    (h : (p.prove method settings statement).outcome = .ok f) (hverdict : f.result.verdict = .doesNotHold) :
    ∃ r, r ≠ 0 ∧ r.IsFree ∧ f.result = (ProofResult.refuted method r settings).1 := by
  unfold prove at h
  dsimp only [Attempt.after] at h
  split at h
  next =>
    split at h
    next => cases h
    next =>
      obtain ⟨t, statements, system, remainders, htriangulates, hconclude⟩ :=
        proveWu_eq_ok h (by rw [hverdict]; nofun)
      obtain ⟨r, hr, hne, hleading, hresult⟩ := concludeWu_eq_refuted hconclude hverdict
      exact ⟨r, hne, htriangulates.isFree hp hr hleading, hresult⟩
  next =>
    obtain ⟨proof, s', hreturns, hfails, hresult⟩ := proveArea_eq_refuted h hverdict
    obtain ⟨q, hq, hne, hfree⟩ := Area.Prover.isFree_of_prove hp hreturns hfails
    rw [hq, Option.getD_some] at hresult
    exact ⟨q, hne, hfree, hresult⟩
  next => cases h

/-- Every negative verdict comes with its evidence. -/
theorem hasEvidence_of_doesNotHold (hp : Appended p)
    (h : (p.prove method settings statement).outcome = .ok f)
    (hverdict : f.result.verdict = .doesNotHold) : ∃ r, f.result.HasEvidence settings r := by
  obtain ⟨r, hne, hfree, hresult⟩ := exists_refuted hp h hverdict
  have hrefutable : r.isRefutable = true := by
    unfold Polynomial.isRefutable
    rw [Bool.and_eq_true, Bool.not_eq_true', ← Bool.not_eq_true, Sparse.isZero_iff, List.all_eq_true]
    exact ⟨hne, hfree⟩
  rw [hresult]
  exact ⟨r, rfl, hne, hfree,
    fun _ => Polynomial.isCounterexample_of_counterexample (by decide) hrefutable,
    fun hnone _ => Polynomial.eval?_drawn_eq_zero (by decide) hrefutable hnone⟩

/-- Whether a method refutes the statement on lines that meet, with a counterexample. -/
def refutesCross (method : String) : Bool :=
  (crossFigure.prove method {} none).outcome.toOption.any fun f =>
    f.result.verdict = .doesNotHold && f.result.counterexample.isSome

set_option maxRecDepth 100000 in
theorem refutesCross_wu : refutesCross "wu" = true := by decide +kernel

set_option maxRecDepth 100000 in
theorem refutesCross_area : refutesCross "area" = true := by
  unfold refutesCross prove proveArea
  dsimp only
  rw [Area.Prover.run_prove rfl rfl (by decide)]
  decide +kernel

/-- Both methods refute the statement on lines that meet, and show values at which it fails. -/
theorem hasEvidence_crossFigure : Appended crossFigure ∧ ∀ method ∈ ["wu", "area"],
    ∃ f r a, (crossFigure.prove method {} none).outcome = .ok f ∧ f.result.verdict = .doesNotHold ∧
      f.result.HasEvidence {} r ∧ f.result.counterexample = some a := by
  refine ⟨appended_figure _, fun method hmethod => ?_⟩
  have hrefutes : refutesCross method = true := by
    rcases List.mem_cons.1 hmethod with rfl | hmethod
    · exact refutesCross_wu
    · obtain rfl := List.mem_singleton.1 hmethod
      exact refutesCross_area
  unfold refutesCross at hrefutes
  cases hf : (crossFigure.prove method {} none).outcome with
  | error e =>
      rw [hf] at hrefutes
      cases hrefutes
  | ok f =>
      rw [hf] at hrefutes
      obtain ⟨hverdict, hfound⟩ := Bool.and_eq_true_iff.1 (Option.any_some.symm.trans hrefutes)
      have hverdict : f.result.verdict = .doesNotHold := of_decide_eq_true hverdict
      obtain ⟨a, ha⟩ := Option.isSome_iff_exists.1 hfound
      obtain ⟨r, hr⟩ := hasEvidence_of_doesNotHold (appended_figure _) hf hverdict
      exact ⟨f, r, a, rfl, hverdict, hr, ha⟩

end Protocol

end Planimetry
