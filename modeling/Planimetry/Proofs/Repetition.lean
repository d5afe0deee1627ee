import Planimetry.Proofs.Area.Evaluation
import Planimetry.Proofs.Area.Repetition

/-! What a proof leaves behind for the next one on the same protocol: the area method comes to the verdict
to which it would come at once, while triangulation has no hypotheses left once the points are placed. -/

namespace Planimetry.Protocol

variable {p : Protocol} {settings : Settings} {method : String} {f f' : Finished}
  {t t' : Transformation} {statements : List Polynomial}

theorem prove_eq_ok (h : (p.prove method settings none).outcome = .ok f) :
    method = "wu" ∧ (p.proveWu settings).outcome = .ok f ∨
      method = "area" ∧ (p.proveArea settings none).outcome = .ok f := by
  unfold prove at h
  dsimp only [Attempt.after] at h
  split at h
  next => exact .inl ⟨rfl, h⟩
  next => exact .inr ⟨rfl, h⟩
  next => cases h

/-- A verdict on a statement that holds unless one of some polynomials vanishes. -/
def holdsUnless (candidates : List Polynomial) : Verdict :=
  if candidates.all Polynomial.isConstant then .holds else .holdsUnderNdg

theorem concludeHolds_eq_ok {candidates : List Polynomial} {result : List Nondegeneracy → ProofResult}
    (h : (p.concludeHolds settings candidates result).outcome = .ok f)
    (hresult : ∀ ns, (result ns).verdict = if ns.isEmpty then .holds else .holdsUnderNdg) :
    f.result.verdict = holdsUnless candidates ∧ f.protocol = p := by
  unfold concludeHolds at h
  split at h
  next => cases h
  next ns events hns =>
    cases h
    refine ⟨?_, rfl⟩
    unfold holdsUnless
    rw [hresult, isEmpty_of_explainAll hns]

section Wu

theorem protocol_concludeWu {system : Triangular} {remainders : List Polynomial}
    (h : (concludeWu settings t system remainders).outcome = .ok f) : f.protocol = t.protocol := by
  unfold concludeWu at h
  dsimp only at h
  split at h
  next =>
    cases h
    rfl
  next =>
    split at h
    next =>
      split at h
      next =>
        cases h
        rfl
      next =>
        cases h
        rfl
    next => exact (concludeHolds_eq_ok h fun _ => rfl).2

/-- The verdict depends on the hypotheses, the factors and the statement only. -/
theorem verdict_concludeWu {system : Triangular} {remainders : List Polynomial}
    (hfactors : t'.factors = t.factors)
    (h : (concludeWu settings t system remainders).outcome = .ok f)
    (h' : (concludeWu settings t' system remainders).outcome = .ok f') :
    f'.result.verdict = f.result.verdict := by
  unfold concludeWu at h h'
  dsimp only at h h'
  split at h
  next hinconsistent =>
    rw [if_pos hinconsistent] at h'
    cases h
    cases h'
    rfl
  next hinconsistent =>
    rw [if_neg hinconsistent] at h'
    cases hr : remainders.find? fun r => !r.isZero with
    | some r =>
        rw [hr] at h h'
        dsimp only at h h'
        split at h
        next hleading =>
          rw [if_pos hleading] at h'
          cases h
          cases h'
          rfl
        next hleading =>
          rw [if_neg hleading] at h'
          cases h
          cases h'
          rfl
    | none =>
        rw [hr] at h h'
        rw [hfactors] at h'
        rw [(concludeHolds_eq_ok h fun _ => rfl).1, (concludeHolds_eq_ok h' fun _ => rfl).1]

theorem protocol_reduceWu (h : (reduceWu settings t statements).outcome = .ok f) :
    f.protocol = t.protocol := by
  unfold reduceWu at h
  split at h
  next =>
    cases h
    rfl
  next =>
    split at h
    next =>
      cases h
      rfl
    next =>
      dsimp only [Attempt.after] at h
      split at h
      next =>
        cases h
        rfl
      next => exact protocol_concludeWu h

theorem verdict_reduceWu (hsystem : t'.system = t.system) (hfactors : t'.factors = t.factors)
    (h : (reduceWu settings t statements).outcome = .ok f)
    (h' : (reduceWu settings t' statements).outcome = .ok f') :
    f'.result.verdict = f.result.verdict := by
  unfold reduceWu at h h'
  rw [hsystem] at h'
  split at h
  next hempty =>
    rw [if_pos hempty] at h'
    cases h
    cases h'
    rfl
  next hempty =>
    rw [if_neg hempty] at h'
    cases hsystem : Triangular.ofSystem settings.maxTerms t.system with
    | error e =>
        rw [hsystem] at h h'
        cases h
        cases h'
        rfl
    | ok system =>
        rw [hsystem] at h h'
        dsimp only [Attempt.after] at h h'
        cases hremainders : statements.mapM (system.reduce settings.maxTerms) with
        | error e =>
            rw [hremainders] at h h'
            cases h
            cases h'
            rfl
        | ok remainders =>
            rw [hremainders] at h h'
            exact verdict_concludeWu hfactors h h'

theorem proveWu_eq_ok_of_run (hrun : (p.startWu settings).run = (none, t))
    (h : (p.proveWu settings).outcome = .ok f) :
    ∃ statements, Transformation.statementPolynomials t.protocol = .ok statements ∧
      (reduceWu settings t statements).outcome = .ok f := by
  unfold proveWu at h
  unfold startWu at hrun
  dsimp only [Attempt.after] at h
  rw [hrun] at h
  dsimp only at h
  split at h
  next => cases h
  next statements hstatements => exact ⟨statements, hstatements, h⟩

end Wu

section Area

open Area

/-- The verdict of a proof by the area method. -/
def verdictArea : Except Area.Error Proof → Verdict
  | .error _ => .inconclusive
  | .ok proof => if proof.holds then holdsUnless proof.nondegenerate else .doesNotHold

theorem proveArea_eq_ok (h : (p.proveArea settings none).outcome = .ok f) :
    ∃ outcome s, ((Prover.ofProtocol p settings).prove none).run
        { protocol := p, events := (Prover.ofProtocol p settings).context.events } = (outcome, s) ∧
      f.result.verdict = verdictArea outcome ∧ f.protocol = s.protocol := by
  unfold proveArea at h
  dsimp only at h
  generalize ((Prover.ofProtocol p settings).prove none).run
    { protocol := p, events := (Prover.ofProtocol p settings).context.events } = result at h ⊢
  obtain ⟨outcome, s⟩ := result
  refine ⟨outcome, s, rfl, ?_⟩
  dsimp only [Attempt.after] at h
  cases outcome with
  | error e =>
      dsimp only at h
      split at h
      next =>
        cases h
        exact ⟨rfl, rfl⟩
      next => cases h
  | ok proof =>
      dsimp only at h
      split at h
      next hholds =>
        obtain ⟨hverdict, hprotocol⟩ := concludeHolds_eq_ok h fun _ => rfl
        exact ⟨hverdict.trans (if_pos hholds).symm, hprotocol⟩
      next hholds =>
        cases h
        exact ⟨(if_neg hholds).symm, rfl⟩

theorem verdictArea_of_endsAlike {g : Variable → Variable} (hg : Function.Injective g)
    {outcome outcome' : Except Area.Error Proof}
    (h : EndsAlike (fun a b => b.holds = a.holds ∧
      b.nondegenerate = a.nondegenerate.map (Polynomial.rename g)) outcome outcome') :
    verdictArea outcome' = verdictArea outcome := by
  cases h with
  | error e => rfl
  | ok hproof =>
      obtain ⟨hholds, hnondegenerate⟩ := hproof
      simp only [verdictArea, holdsUnless, hholds, hnondegenerate, List.all_map, Function.comp_def,
        Polynomial.isConstant_rename hg]

/-- A proof by the area method comes to the same verdict where the points have coordinates already. -/
theorem verdict_proveArea_ahead {k : ℕ} (hp : Appended p) (ht : p.IsPass settings t)
    (h : (p.proveArea settings none).outcome = .ok f)
    (h' : ((t.protocol.ahead k).proveArea settings none).outcome = .ok f') :
    f'.result.verdict = f.result.verdict := by
  obtain ⟨outcome, s, hrun, hverdict, -⟩ := proveArea_eq_ok h
  obtain ⟨outcome', s', hrun', hverdict', -⟩ := proveArea_eq_ok h'
  have hprover : Prover.ofProtocol (t.protocol.ahead k) settings = Prover.ofProtocol p settings :=
    congr_arg (Prover.mk settings) (Context.ofProtocol_of_core ht.core)
  rw [hprover] at hrun'
  have hstart := Progress.trails_start p t.protocol k
    (Prover.ofProtocol p settings).context.events (Prover.ofProtocol p settings).context.events
  have hends := (Prover.follows_prove (m := Prover.ofProtocol p settings) hp ht none _ _ hstart).1
  rw [hrun, hrun'] at hends
  rw [hverdict, hverdict']
  exact verdictArea_of_endsAlike (Variable.ahead_injective _ _) hends

end Area

/-- A proof leaves a protocol as it was, or with the coordinates of a pass and some more free variables
given out. -/
theorem protocol_prove (hp : Appended p) (ht : p.IsPass settings t)
    (h : (p.prove method settings none).outcome = .ok f) :
    f.protocol = p ∨ ∃ k, f.protocol = t.protocol.ahead k := by
  rcases prove_eq_ok h with ⟨-, h⟩ | ⟨-, h⟩
  · obtain ⟨statements, -, h⟩ := proveWu_eq_ok_of_run ht.run h
    exact .inr ⟨0, (protocol_reduceWu h).trans (ahead_zero _).symm⟩
  · obtain ⟨outcome, s, hrun, -, hprotocol⟩ := proveArea_eq_ok h
    have hstart := Area.Progress.trails_start p t.protocol 0
      (Area.Prover.ofProtocol p settings).context.events []
    have htrails := (Area.Prover.follows_prove (m := Area.Prover.ofProtocol p settings) hp ht none
      _ _ hstart).2
    rw [hrun] at htrails
    rw [hprotocol]
    rcases htrails with htrails | htrails
    · exact .inl htrails.protocol.1
    · exact .inr (htrails.protocol.imp fun j hj => hj.1)

/-- A proof by the area method is repeatable after any proof. One by triangulation is where the earlier
proof placed no points, or where the pass finds no hypotheses and no factors; otherwise all hypotheses of the
figure are lost on it, as the next pass passes over the placed points. -/
theorem verdict_prove_again {first second fresh : Finished} {method' : String} (hp : Appended p)
    (hfirst : (p.prove method settings none).outcome = .ok first)
    (hsecond : (first.protocol.prove method' settings none).outcome = .ok second)
    (hfresh : (p.prove method' settings none).outcome = .ok fresh) :
    (method' = "area" ∨ first.protocol = p ∨
        (p.startWu settings).run.2.system = [] ∧ (p.startWu settings).run.2.factors = [] →
      second.result.verdict = fresh.result.verdict) ∧
    (first.protocol = p ∨
      (first.protocol.startWu settings).run = (none, first.protocol.startWu settings)) := by
  have hunchanged (hsame : first.protocol = p) : second.result.verdict = fresh.result.verdict := by
    rw [hsame] at hsecond
    rw [Except.ok.inj (hsecond.symm.trans hfresh)]
  obtain ⟨t, ht⟩ := exists_isPass hp settings
  rw [ht.run]
  rcases protocol_prove hp ht hfirst with hsame | ⟨k, hahead⟩
  · exact ⟨fun _ => hunchanged hsame, .inl hsame⟩
  · rw [hahead] at hsecond ⊢
    refine ⟨fun hcase => ?_, .inr (ht.run_ahead k)⟩
    rcases prove_eq_ok hfresh with ⟨rfl, hfresh⟩ | ⟨rfl, hfresh⟩
    · rcases prove_eq_ok hsecond with ⟨-, hsecond⟩ | ⟨hname, -⟩
      · obtain ⟨statements, hstatements, hfresh⟩ := proveWu_eq_ok_of_run ht.run hfresh
        obtain ⟨statements', hstatements', hsecond⟩ :=
          proveWu_eq_ok_of_run (ht.run_ahead k) hsecond
        obtain rfl := Except.ok.inj (hstatements.symm.trans hstatements')
        rcases hcase with hname | hsame | ⟨hsystem, hfactors⟩
        · exact absurd hname (by decide)
        · exact hunchanged (hahead.trans hsame)
        · exact verdict_reduceWu hsystem.symm hfactors.symm hfresh hsecond
      · exact absurd hname (by decide)
    · rcases prove_eq_ok hsecond with ⟨hname, -⟩ | ⟨-, hsecond⟩
      · exact absurd hname (by decide)
      · exact verdict_proveArea_ahead hp ht hfresh hsecond

/-- The midpoint of a side is on that side. -/
def medianFigure : Protocol :=
  .figure [("A", .point .free), ("B", .point .free), ("M", .point (.midpoint "A" "B")),
    ("s", .statement (.collinear "A" "B" "M"))]

/-- The figure with the coordinates that a proof gives to its points. -/
def placedMedian : Protocol :=
  { medianFigure with
    steps := [
      { label := "A", construction := .point .free, index := 0,
        placement := ⟨some (.free 1), some (.free 2), .unchanged⟩ },
      { label := "B", construction := .point .free, index := 1,
        placement := ⟨some (.free 3), some (.free 4), .unchanged⟩ },
      { label := "M", construction := .point (.midpoint "A" "B"), index := 2,
        placement := ⟨some (.dependent 1), some (.dependent 2), .modified⟩ }]
    freeIndex := 5
    dependentIndex := 3 }

/-- A finished proof has a verdict and leaves a protocol behind. -/
def ends (p : Protocol) (method : String) (verdict : Verdict) (q : Protocol) : Bool :=
  (p.prove method {} none).outcome.toOption.any fun f => f.result.verdict = verdict && f.protocol = q

theorem exists_of_ends {verdict : Verdict} {q : Protocol} (h : p.ends method verdict q = true) :
    ∃ f, (p.prove method {} none).outcome = .ok f ∧ f.result.verdict = verdict ∧ f.protocol = q := by
  unfold ends at h
  cases hf : (p.prove method {} none).outcome with
  | error e =>
      rw [hf] at h
      cases h
  | ok f =>
      rw [hf] at h
      obtain ⟨hverdict, hprotocol⟩ := Bool.and_eq_true_iff.1 h
      exact ⟨f, rfl, of_decide_eq_true hverdict, of_decide_eq_true hprotocol⟩

theorem ends_medianFigure : medianFigure.ends "wu" .holds placedMedian = true ∧
    placedMedian.ends "wu" .inconclusive placedMedian = true := by
  decide +kernel

theorem ends_area_medianFigure : medianFigure.ends "area" .holds medianFigure = true ∧
    placedMedian.ends "area" .holds placedMedian = true := by
  constructor <;>
  · unfold ends prove proveArea
    dsimp only
    rw [Area.Prover.run_prove rfl rfl (by decide)]
    decide +kernel

/-- A proof by the area method after one by triangulation. -/
theorem verdict_prove_again_medianFigure : ∃ first second fresh,
    (medianFigure.prove "wu" {} none).outcome = .ok first ∧ first.protocol ≠ medianFigure ∧
      (first.protocol.prove "area" {} none).outcome = .ok second ∧
      (medianFigure.prove "area" {} none).outcome = .ok fresh ∧
      second.result.verdict = fresh.result.verdict := by
  obtain ⟨first, hfirst, -, hprotocol⟩ := exists_of_ends ends_medianFigure.1
  obtain ⟨fresh, hfresh, -, -⟩ := exists_of_ends ends_area_medianFigure.1
  obtain ⟨second, hsecond, -, -⟩ := exists_of_ends ends_area_medianFigure.2
  rw [← hprotocol] at hsecond
  refine ⟨first, second, fresh, hfirst, ?_, hsecond, hfresh, ?_⟩
  · rw [hprotocol]
    decide +kernel
  · exact (verdict_prove_again (appended_figure _) hfirst hsecond hfresh).1 (.inl rfl)

/-- A second proof by triangulation does not repeat the verdict of the first one. -/
theorem exists_verdict_ne_medianFigure : Appended medianFigure ∧
    medianFigure.statement.isSome = true ∧ ∃ first second fresh,
    (medianFigure.prove "wu" {} none).outcome = .ok first ∧
      (first.protocol.prove "wu" {} none).outcome = .ok second ∧
      (medianFigure.prove "wu" {} none).outcome = .ok fresh ∧
      second.result.verdict ≠ fresh.result.verdict := by
  obtain ⟨first, hfirst, hholds, hprotocol⟩ := exists_of_ends ends_medianFigure.1
  obtain ⟨second, hsecond, hinconclusive, -⟩ := exists_of_ends ends_medianFigure.2
  rw [← hprotocol] at hsecond
  refine ⟨appended_figure _, by decide +kernel, first, second, first, hfirst, hsecond, hfirst, ?_⟩
  rw [hholds, hinconclusive]
  decide

end Planimetry.Protocol
