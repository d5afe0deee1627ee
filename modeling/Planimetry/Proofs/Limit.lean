import Planimetry.Proofs.Refutation
import Planimetry.Proofs.Triangular.Limit

/-! Verdicts under different limits on the number of terms: a limit that is exceeded leaves the statement open,
and one that is not exceeded does not show in the verdict. -/

namespace Planimetry

namespace Transformation

/-- Brings the system to triangular form and reduces the polynomials of a statement by it. -/
def elimination (limit : Int) (t : Transformation) (statements : List Polynomial) :
    Except LimitExceeded (Triangular × List Polynomial) := do
  let system ← Triangular.ofSystem limit t.system
  let remainders ← statements.mapM (system.reduce limit)
  return (system, remainders)

/-- The same without any limit. -/
def course (t : Transformation) (statements : List Polynomial) :
    Course (Triangular × List Polynomial) := do
  let system ← Course.ofSystem t.system
  let remainders ← statements.mapM (Course.reduce system)
  return (system, remainders)

theorem within_course (limit : Int) (t : Transformation) (statements : List Polynomial) :
    (t.course statements).within limit = t.elimination limit statements := by
  unfold course elimination
  rw [Course.within_bind, Course.within_ofSystem]
  refine bind_congr fun system => ?_
  rw [Course.within_bind, Course.within_mapM limit (Course.within_reduce limit system)]
  rfl

end Transformation

namespace Protocol

variable {p : Protocol} {settings : Settings} {t : Transformation}
  {statements remainders : List Polynomial} {system : Triangular} {e : LimitExceeded}

theorem reduceWu_of_isEmpty (h : statements.isEmpty = true) : reduceWu settings t statements =
    .finished (.inconclusive "wu" "protocol has no theorem statement") t.protocol [] := by
  unfold reduceWu
  rw [if_pos h]

theorem reduceWu_of_elimination (hstatements : statements.isEmpty = false)
    (h : t.elimination settings.maxTerms statements = .ok (system, remainders)) :
    reduceWu settings t statements =
      .after system.events (concludeWu settings t system remainders) := by
  obtain ⟨system', hsystem, h⟩ := bind_eq_ok h
  obtain ⟨remainders', hremainders, h⟩ := bind_eq_ok h
  cases h
  unfold reduceWu
  simp only [hstatements, hsystem, hremainders]
  rfl

theorem outcome_reduceWu_of_elimination (hstatements : statements.isEmpty = false)
    (h : t.elimination settings.maxTerms statements = .error e) :
    (reduceWu settings t statements).outcome = .ok ⟨.inconclusive "wu" e.message, t.protocol⟩ := by
  unfold reduceWu
  rw [hstatements]
  rcases bind_eq_error h with hsystem | ⟨system, hsystem, h⟩
  · simp only [hsystem]
    rfl
  · rcases bind_eq_error h with hremainders | ⟨remainders, -, h⟩
    · simp only [hsystem, hremainders]
      rfl
    · cases h

theorem proveWu_of_run (hrun : (p.startWu settings).run = (none, t))
    (hstatements : Transformation.statementPolynomials t.protocol = .ok statements) :
    p.proveWu settings = .after [Transformation.startEvent p] (reduceWu settings t statements) := by
  unfold startWu at hrun
  unfold proveWu
  simp only [hrun, hstatements]

/-- A proof by triangulation leaves the statement open as a pseudo-remainder has more terms than allowed. -/
structure IsStopped (p : Protocol) (settings : Settings) (e : LimitExceeded) : Prop where
  limit : e.limit = settings.maxTerms
  size : settings.maxTerms < e.size
  elimination : ∃ t statements, (p.startWu settings).run = (none, t) ∧
    Transformation.statementPolynomials t.protocol = .ok statements ∧
    t.elimination settings.maxTerms statements = .error e
  inconclusive : ∃ q, (p.proveWu settings).outcome = .ok ⟨.inconclusive "wu" e.message, q⟩

theorem isStopped_of_elimination (hrun : (p.startWu settings).run = (none, t))
    (hstatements : Transformation.statementPolynomials t.protocol = .ok statements)
    (hempty : statements.isEmpty = false)
    (h : t.elimination settings.maxTerms statements = .error e) : p.IsStopped settings e := by
  obtain ⟨hlimit, hsize⟩ := Course.within_eq_error ((t.within_course _ statements).trans h)
  refine ⟨hlimit, hsize, ⟨t, statements, hrun, hstatements, h⟩, t.protocol, ?_⟩
  rw [proveWu_of_run hrun hstatements]
  exact outcome_reduceWu_of_elimination hempty h

/-- What comes of an elimination that is not stopped comes of it under a higher limit as well. -/
theorem reduceWu_of_le {limit : Int} (hle : settings.maxTerms ≤ limit)
    (hstatements : statements.isEmpty = false)
    (h : t.elimination settings.maxTerms statements = .ok (system, remainders)) :
    reduceWu settings t statements = reduceWu { settings with maxTerms := limit } t statements := by
  rw [← Transformation.within_course] at h
  have hhigher := Course.within_mono hle h
  rw [Transformation.within_course] at h hhigher
  have hreduce : reduceWu { settings with maxTerms := limit } t statements = _ :=
    reduceWu_of_elimination hstatements hhigher
  rw [reduceWu_of_elimination hstatements h, hreduce]
  rfl

/-- A proof is stopped by its limit, or it is the same under any higher one. -/
theorem isStopped_or_proveWu_eq (p : Protocol) (settings : Settings) {limit : Int}
    (hle : settings.maxTerms ≤ limit) :
    (∃ e, p.IsStopped settings e) ∨
      p.proveWu settings = p.proveWu { settings with maxTerms := limit } := by
  rcases hrun : (p.startWu settings).run with ⟨_ | e, t⟩
  · cases hstatements : Transformation.statementPolynomials t.protocol with
    | error e =>
        right
        unfold startWu at hrun
        unfold proveWu
        simp only [hrun, hstatements]
    | ok statements =>
        have hrun' : (p.startWu { settings with maxTerms := limit }).run = (none, t) := hrun
        rw [proveWu_of_run hrun hstatements, proveWu_of_run hrun' hstatements]
        cases hempty : statements.isEmpty with
        | true => rw [reduceWu_of_isEmpty hempty, reduceWu_of_isEmpty hempty]; exact .inr rfl
        | false =>
            cases h : t.elimination settings.maxTerms statements with
            | error e => exact .inl ⟨e, isStopped_of_elimination hrun hstatements hempty h⟩
            | ok result => exact .inr (congr_arg _ (reduceWu_of_le hle hempty h))
  · right
    unfold startWu at hrun
    unfold proveWu
    simp only [hrun]

/-- The limit on the number of terms is no part of an answer: a proof that is not stopped by it is the same
under any higher limit, and all pseudo-remainders of a triangulation that succeeds are within it. -/
theorem answers_proveWu_of_le (p : Protocol) (settings : Settings) {limit : Int}
    (hle : settings.maxTerms ≤ limit) :
    ((∃ e, p.IsStopped settings e) ∨
      p.proveWu settings = p.proveWu { settings with maxTerms := limit }) ∧
    ∀ system t, Triangular.ofSystem settings.maxTerms system = .ok t →
      Triangular.IsWithin settings.maxTerms system t :=
  ⟨p.isStopped_or_proveWu_eq settings hle, fun _ _ => Triangular.isWithin_of_ofSystem⟩

/-- Whether a proof on lines that meet comes to a verdict under a limit. -/
def decidesCross (limit : Int) : Bool :=
  (crossFigure.proveWu { maxTerms := limit }).outcome.toOption.any fun f =>
    f.result.verdict = .doesNotHold

set_option maxRecDepth 100000 in
theorem decidesCross_limits :
    decidesCross 2 = false ∧ decidesCross 100 = true ∧ decidesCross 20000 = true := by
  decide +kernel

/-- Two terms are too few for lines that meet, and a hundred as good as any higher number. -/
theorem answers_proveWu_crossFigure : (2 : Int) ≤ 20000 ∧ (100 : Int) ≤ 20000 ∧
    (∃ e, crossFigure.IsStopped { maxTerms := 2 } e) ∧
    crossFigure.proveWu { maxTerms := 100 } = crossFigure.proveWu { maxTerms := 20000 } := by
  obtain ⟨hlow, hmiddle, hhigh⟩ := decidesCross_limits
  have h2 : (2 : Int) ≤ 20000 := by decide
  have h100 : (100 : Int) ≤ 20000 := by decide
  refine ⟨h2, h100, ?_, ?_⟩
  · refine (answers_proveWu_of_le crossFigure { maxTerms := 2 } h2).1.resolve_right fun heq => ?_
    unfold decidesCross at hlow hhigh
    rw [heq, hhigh] at hlow
    cases hlow
  · refine (answers_proveWu_of_le crossFigure { maxTerms := 100 } h100).1.resolve_left ?_
    rintro ⟨e, hstopped⟩
    obtain ⟨q, hq⟩ := hstopped.inconclusive
    unfold decidesCross at hmiddle
    rw [hq] at hmiddle
    cases hmiddle

end Protocol

end Planimetry
