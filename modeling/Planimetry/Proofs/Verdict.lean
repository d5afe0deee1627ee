import Planimetry.Proofs.Degeneracy
import Planimetry.Proofs.Transformation.Pass
import Planimetry.Verdict

/-! Verdicts by triangulation: a statement that is proved holds wherever the committed conditions hold and
no reported polynomial vanishes. -/

namespace Planimetry

namespace Transformation

variable {p : Protocol} {t : Transformation} {s : Step} {relation : Relation}
  {statements : List Polynomial}

theorem statementPolynomials_eq_ok (hs : p.statement = some s)
    (hrelation : s.construction = .statement relation)
    (h : statementPolynomials p = .ok statements) :
    ∃ q, statements = [q] ∧ p.polynomialOf s relation.condition = .ok q := by
  unfold statementPolynomials at h
  simp only [hs, Protocol.alternatives_of_statement hrelation, Except.toOption, Option.getD_some, List.head?_cons] at h
  split at h
  next => cases h
  next =>
    rw [List.mapM_cons, List.mapM_nil] at h
    obtain ⟨q, hq, h⟩ := bind_eq_ok h
    exact ⟨q, (Except.ok.inj h).symm, hq⟩

theorem statementPolynomials_of_none (hs : p.statement = none) :
    statementPolynomials p = .ok [] := by
  unfold statementPolynomials
  rw [hs]
  rfl

/-- A statement holds exactly where its polynomial vanishes, if all points stand where they are
placed. -/
theorem HoldsAt.statement_iff {σ : Variable → ℚ} {place : Label → ℚ × ℚ} (ht : t.HoldsAt σ place)
    (hrelation : s.construction = .statement relation) {q : Polynomial}
    (h : t.protocol.polynomialOf s relation.condition = .ok q) :
    relation.condition.HoldsAt place ↔ q.valueAt σ = 0 := by
  refine Protocol.holdsAt_iff_valueAt_polynomialOf h relation.isPure_condition fun l xy hxy => ?_
  unfold Protocol.coordinatesFor at hxy
  split at hxy
  next =>
    rw [coordinates?_of_statement hrelation] at hxy
    cases hxy
  next =>
    obtain ⟨u, hu, hxy⟩ := Option.bind_eq_some_iff.1 hxy
    obtain ⟨hmem, hlabel⟩ := Protocol.mem_of_get? hu
    obtain ⟨hx, hy⟩ := Trial.coordinates?_eq_some hxy
    rw [← hlabel, (ht.faithful u hmem).1 _ hx, (ht.faithful u hmem).2 _ hy]

end Transformation

namespace Protocol

/-- The pass with which a proof by triangulation begins. -/
def startWu (p : Protocol) (settings : Settings) : Transformation :=
  { protocol := p, best := settings.useBestInstantiation, align := settings.alignBasePoints }

/-- The alternatives that a proof by triangulation commits, in the order of construction. -/
def commitments (p : Protocol) (settings : Settings) : List Commitment :=
  (p.startWu settings).commitments (List.range p.size)

variable {p : Protocol} {settings : Settings} {f : Finished} {t : Transformation}
  {statements remainders : List Polynomial} {system : Triangular}

/-- How a proof by triangulation comes to the remainders of the statement. -/
structure Triangulates (p : Protocol) (settings : Settings) (t : Transformation)
    (statements : List Polynomial) (system : Triangular) (remainders : List Polynomial) : Prop where
  run : (p.startWu settings).run = (none, t)
  statements_eq : Transformation.statementPolynomials t.protocol = .ok statements
  statements_ne : statements ≠ []
  system_eq : Triangular.ofSystem settings.maxTerms t.system = .ok system
  remainders_eq : statements.mapM (system.reduce settings.maxTerms) = .ok remainders

theorem reduceWu_eq_ok (h : (reduceWu settings t statements).outcome = .ok f)
    (hverdict : f.result.verdict ≠ .inconclusive) :
    statements ≠ [] ∧ ∃ system remainders,
      Triangular.ofSystem settings.maxTerms t.system = .ok system ∧
        statements.mapM (system.reduce settings.maxTerms) = .ok remainders ∧
        (concludeWu settings t system remainders).outcome = .ok f := by
  unfold reduceWu at h
  split at h
  next =>
    cases h
    exact absurd rfl hverdict
  next hne =>
    refine ⟨fun hnil => hne (List.isEmpty_iff.2 hnil), ?_⟩
    split at h
    next =>
      cases h
      exact absurd rfl hverdict
    next system hsystem =>
      dsimp only [Attempt.after] at h
      split at h
      next =>
        cases h
        exact absurd rfl hverdict
      next remainders hremainders => exact ⟨system, remainders, hsystem, hremainders, h⟩

/-- A verdict that settles the statement comes from its remainders. -/
theorem proveWu_eq_ok (h : (p.proveWu settings).outcome = .ok f)
    (hverdict : f.result.verdict ≠ .inconclusive) :
    ∃ t statements system remainders,
      p.Triangulates settings t statements system remainders ∧
        (concludeWu settings t system remainders).outcome = .ok f := by
  unfold proveWu at h
  dsimp only [Attempt.after] at h
  split at h
  next => cases h
  next t hrun =>
    split at h
    next => cases h
    next statements hstatements =>
      obtain ⟨hne, system, remainders, hsystem, hremainders, h⟩ := reduceWu_eq_ok h hverdict
      exact ⟨t, statements, system, remainders, ⟨hrun, hstatements, hne, hsystem, hremainders⟩, h⟩

/-- A statement is proved if all remainders vanish, and then all initials and factors are told. -/
theorem concludeWu_of_isProved (h : (concludeWu settings t system remainders).outcome = .ok f)
    (hproved : f.result.isProved = true) :
    (∀ r ∈ remainders, r = 0) ∧ ∃ events,
      t.protocol.explainAll settings.maxNdgPoints
        (system.initials ++ t.factors.map Hypothesis.polynomial) =
        (.ok f.result.conditions, events) := by
  unfold concludeWu at h
  dsimp only at h
  split at h
  next =>
    cases h
    cases hproved
  next =>
    split at h
    next =>
      split at h
      next =>
        cases h
        cases hproved
      next =>
        cases h
        cases hproved
    next hnone =>
      refine ⟨fun r hr => ?_, ?_⟩
      · have hzero := List.find?_eq_none.1 hnone r hr
        exact Sparse.isZero_iff.1 (by simpa using hzero)
      · unfold concludeHolds at h
        split at h
        next => cases h
        next conditions events hexplain =>
          cases h
          exact ⟨events, hexplain⟩

/-- A proof by triangulation starts from a consistent pass. -/
theorem isConsistent_startWu (hp : Appended p) (settings : Settings) :
    (p.startWu settings).IsConsistent p :=
  Transformation.isConsistent_start hp _ _

/-- The pass of a proof at a placement that meets the committed conditions, unless a factor vanishes. -/
theorem Triangulates.holdsAt {place : Label → ℚ × ℚ}
    (h : p.Triangulates settings t statements system remainders) (hp : Appended p)
    (halign : settings.alignBasePoints = true → p.IsAligned place)
    (hholds : ∀ c ∈ p.commitments settings, ∀ d ∈ c.alternative, d.HoldsAt place)
    (hne : ∀ k ∈ t.factors,
      k.polynomial.valueAt (coordinateValue (p.commitments settings) place) ≠ 0) :
    t.HoldsAt (coordinateValue (p.commitments settings) place) place := by
  have hstart : (p.startWu settings).HoldsAt (coordinateValue (p.commitments settings) place)
      place := by
    refine ⟨fun s hs => ?_, List.forall_mem_nil _⟩
    rw [hp.unplaced s hs]
    exact ⟨nofun, nofun⟩
  have hσ : coordinateValue (p.commitments settings) place =
      coordinateValue ([] ++ (p.startWu settings).commitments (List.range p.size)) place := rfl
  exact hstart.advanceAll (isConsistent_startWu hp settings) hp.ordered halign hσ
    (List.forall_mem_nil _) hholds h.run hne

theorem Triangulates.isConsistent
    (h : p.Triangulates settings t statements system remainders) (hp : Appended p) :
    t.IsConsistent p :=
  (isConsistent_startWu hp settings).advanceAll hp.ordered h.run

/-- There is one polynomial to reduce, that of the statement of the protocol. -/
theorem Triangulates.statement (h : p.Triangulates settings t statements system remainders)
    (hp : Appended p) :
    ∃ s relation q, p.statement = some s ∧ s.construction = .statement relation ∧
      statements = [q] ∧ t.protocol.polynomialOf s relation.condition = .ok q := by
  have hsame := (h.isConsistent hp).statement
  cases hs : p.statement with
  | none =>
      have hnone := Transformation.statementPolynomials_of_none (hsame.trans hs)
      rw [h.statements_eq] at hnone
      exact absurd (Except.ok.inj hnone) h.statements_ne
  | some s =>
      obtain ⟨relation, hrelation⟩ := hp.construction_of_statement hs
      obtain ⟨q, hq, hpolynomial⟩ := Transformation.statementPolynomials_eq_ok
        (hsame.trans hs) hrelation h.statements_eq
      exact ⟨s, relation, q, rfl, hrelation, hq, hpolynomial⟩

/-- Triangulation is sound. A statement that is proved holds at every placement that meets the committed
conditions and at which no reported polynomial vanishes. -/
theorem holdsAt_of_isProved_proveWu (hp : Appended p) (h : (p.proveWu settings).outcome = .ok f)
    (hproved : f.result.isProved = true) {place : Label → ℚ × ℚ}
    (halign : settings.alignBasePoints = true → p.IsAligned place)
    (hholds : ∀ c ∈ p.commitments settings, ∀ d ∈ c.alternative, d.HoldsAt place)
    (hreported : ∀ n ∈ f.result.conditions,
      n.polynomial.eval (coordinateValue (p.commitments settings) place) ≠ 0) :
    ∃ s relation, p.statement = some s ∧ s.construction = .statement relation ∧
      relation.condition.HoldsAt place := by
  have hverdict : f.result.verdict ≠ .inconclusive := by
    intro heq
    unfold ProofResult.isProved at hproved
    rw [heq] at hproved
    cases hproved
  obtain ⟨t, statements, system, remainders, htriangulates, hconclude⟩ := proveWu_eq_ok h hverdict
  obtain ⟨hzero, events, hexplain⟩ := concludeWu_of_isProved hconclude hproved
  have hne {q : Polynomial} (hq : q ∈ system.initials ++ t.factors.map Hypothesis.polynomial)
      (hconstant : q.isConstant = false) :
      q.valueAt (coordinateValue (p.commitments settings) place) ≠ 0 := by
    refine valueAt_ne_zero_of_explainAll hexplain hq hconstant fun n hn => ?_
    rw [← Polynomial.eval_eq_valueAt]
    exact hreported n hn
  have hholdsAt := htriangulates.holdsAt hp halign hholds fun k hk =>
    hne (List.mem_append_right _ (List.mem_map_of_mem hk))
      ((htriangulates.isConsistent hp).factors k hk)
  obtain ⟨hchain, -⟩ := Triangular.chainVanishAt_ofSystem hholdsAt.system htriangulates.system_eq
  have hproper := Triangular.isProper_ofSystem htriangulates.system_eq
  obtain ⟨s, relation, q, hs, hrelation, rfl, hq⟩ := htriangulates.statement hp
  obtain ⟨r, hr, hreduce⟩ := Triangular.exists_reduce_of_mapM htriangulates.remainders_eq
  obtain ⟨c, hc, hcne⟩ := Triangular.exists_mul_eq_reduce hchain hreduce
  rw [hzero r hr, Polynomial.valueAt_zero] at hc
  refine ⟨s, relation, hs, hrelation, (hholdsAt.statement_iff hrelation hq).2 ?_⟩
  refine (mul_eq_zero.1 hc).resolve_left (hcne fun i hi => ?_)
  cases hconstant : i.isConstant with
  | true =>
      obtain ⟨e, he, rfl⟩ := List.mem_map.1 hi
      exact Polynomial.valueAt_ne_zero_of_isConstant _ hconstant (hproper.initial_ne_zero he)
  | false => exact hne (List.mem_append_left _ hi) hconstant

/-- A point with the foot of its perpendicular to a line, stated to be on that line. -/
def footFigure : Protocol :=
  figure [("A", .point .free), ("B", .point .free), ("C", .point .free),
    ("F", .point (.foot "C" "A" "B")), ("s", .statement (.collinear "A" "B" "F"))]

def footPlace (l : Label) : ℚ × ℚ :=
  if l = "A" then (0, 0) else if l = "B" then (4, 0) else if l = "C" then (1, 2) else (1, 0)

set_option maxRecDepth 100000 in
theorem isProved_footFigure :
    ((footFigure.proveWu {}).outcome.toOption.any fun f => f.result.isProved &&
      f.result.conditions.all fun n =>
        n.polynomial.eval (coordinateValue (footFigure.commitments {}) footPlace) ≠ 0) = true := by
  decide +kernel

theorem holdsAt_footFigure : ∃ f, (footFigure.proveWu {}).outcome = .ok f ∧
    f.result.isProved = true ∧
    (∀ n ∈ f.result.conditions,
      n.polynomial.eval (coordinateValue (footFigure.commitments {}) footPlace) ≠ 0) ∧
    ∃ s relation, footFigure.statement = some s ∧ s.construction = .statement relation ∧
      relation.condition.HoldsAt footPlace := by
  have hrun := isProved_footFigure
  cases hf : (footFigure.proveWu {}).outcome with
  | error e =>
      rw [hf] at hrun
      cases hrun
  | ok f =>
      rw [hf] at hrun
      have hboth := Bool.and_eq_true_iff.1 hrun
      have hreported : ∀ n ∈ f.result.conditions,
          n.polynomial.eval (coordinateValue (footFigure.commitments {}) footPlace) ≠ 0 :=
        fun n hn => of_decide_eq_true (List.all_eq_true.1 hboth.2 n hn)
      refine ⟨f, rfl, hboth.1, hreported, ?_⟩
      exact holdsAt_of_isProved_proveWu (appended_figure _) hf hboth.1 (fun h => nomatch h)
        (by decide +kernel) hreported

end Protocol
end Planimetry
