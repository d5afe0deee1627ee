import Planimetry.Area.Proof
import Planimetry.Counterexample
import Planimetry.Degeneracy
import Planimetry.Figure.Entries
import Planimetry.Triangular

/-! Verdicts on the statement of a protocol, by triangulation or by the area method. -/

namespace Planimetry

inductive Verdict where
  | holds
  | holdsUnderNdg
  | doesNotHold
  | inconclusive
  deriving DecidableEq, Repr

/-- A verdict with its evidence: the conditions under which the statement holds, or a remainder that
does not vanish and values of its variables that show it. -/
structure ProofResult where
  verdict : Verdict
  method : String
  conditions : List Nondegeneracy := []
  remainder : Option Polynomial := none
  counterexample : Option Assignment := none
  diagnostics : List String := []
  notes : List String := []
  deriving DecidableEq

/-- A finished proof: its result, and the protocol it leaves behind. -/
structure Finished where
  result : ProofResult
  protocol : Protocol
  deriving DecidableEq

inductive ProofError where
  | transform (error : TransformError)
  | degeneracy (error : DegeneracyError)
  | area (error : Area.Error)
  | explicitStatement
  | unknownMethod (name : String)
  deriving DecidableEq

/-- What becomes of an attempt at a proof, with the events on the way, also of one that fails. -/
structure Attempt where
  outcome : Except ProofError Finished
  events : List Event

namespace Verdict

def text : Verdict → String
  | .holds => "holds"
  | .holdsUnderNdg => "holds under NDG conditions"
  | .doesNotHold => "does not hold"
  | .inconclusive => "inconclusive"

def isProved : Verdict → Bool
  | .holds | .holdsUnderNdg => true
  | _ => false

end Verdict

namespace ProofResult

def isProved (r : ProofResult) : Bool := r.verdict.isProved

/-- The verdict, then what it depends on, a line each. -/
def summary (r : ProofResult) : String :=
  "\n".intercalate <|
    (r.method ++ ": " ++ r.verdict.text) ::
      (r.conditions.map fun n => "  provided that " ++ n.text) ++
      ((r.remainder.toList.filter fun q => !q.isZero).map fun q => "  remainder: " ++ q.text) ++
      r.notes.map fun n => "  note: " ++ n

def inconclusive (method note : String) : ProofResult :=
  { verdict := .inconclusive, method, notes := [note] }

def holds (method : String) (conditions : List Nondegeneracy) : ProofResult :=
  { verdict := if conditions.isEmpty then .holds else .holdsUnderNdg, method, conditions }

/-- A statement with a remainder that does not vanish, and a search for values that show it. -/
def refuted (method : String) (remainder : Polynomial) (settings : Settings) :
    ProofResult × List Event :=
  let attempts := settings.counterexampleAttempts
  let found := (remainder.counterexample attempts 10 (.seeded settings.counterexampleSeed)).1
  ({ verdict := .doesNotHold, method, remainder := some remainder, counterexample := found },
    remainder.counterexampleEvents attempts found)

end ProofResult

namespace ProofError

def message : ProofError → String
  | .transform e => e.message
  | .degeneracy (.transform e) => e.message
  | .degeneracy (.count n m) => toString m ++ " points where " ++ toString n ++ " are needed"
  | .area e => e.message
  | .explicitStatement => "explicit area statements need method='area'"
  | .unknownMethod m => "unknown proving method " ++ Text.quoted m

end ProofError

namespace Attempt

def failed (e : ProofError) (events : List Event) : Attempt := ⟨.error e, events⟩

def finished (r : ProofResult) (p : Protocol) (events : List Event) : Attempt :=
  ⟨.ok ⟨r, p⟩, events⟩

/-- Puts events in front of those of an attempt. -/
def after (events : List Event) (a : Attempt) : Attempt := { a with events := events ++ a.events }

end Attempt

namespace Protocol

/-- The result for a statement that holds unless some polynomials vanish. -/
def concludeHolds (p : Protocol) (settings : Settings) (candidates : List Polynomial)
    (result : List Nondegeneracy → ProofResult) : Attempt :=
  match p.explainAll settings.maxNdgPoints candidates with
  | (.error e, events) => .failed (.degeneracy e) events
  | (.ok conditions, events) => .finished (result conditions) p events

/-- The result for a statement with a remainder that does not vanish. -/
def concludeRefuted (p : Protocol) (settings : Settings) (method : String) (r : Polynomial) : Attempt :=
  let (result, events) := ProofResult.refuted method r settings
  .finished result p events

/-- The verdict once the remainders of the statement are known. -/
def concludeWu (settings : Settings) (t : Transformation) (system : Triangular)
    (remainders : List Polynomial) : Attempt :=
  let p := t.protocol
  if system.isInconsistent then
    .finished (.inconclusive "wu" "construction hypotheses are contradictory") p []
  else match remainders.find? fun r => !r.isZero with
    | some r =>
      if r.leadingVariable.isSome then
        .finished { ProofResult.inconclusive "wu"
          "remainder still depends on constructed coordinates" with remainder := some r } p []
      else p.concludeRefuted settings "wu" r
    | none =>
      p.concludeHolds settings (system.initials ++ t.factors.map Hypothesis.polynomial)
        fun conditions => { ProofResult.holds "wu" conditions with
          remainder := some 0
          notes := if system.residual.isEmpty then []
            else [toString system.residual.length ++
              " parameter constraint(s) left by triangulation"] }

/-- The verdict for an elimination that exceeds its limit. -/
def concludeStopped (p : Protocol) (e : LimitExceeded) : Attempt :=
  .finished (.inconclusive "wu" e.message) p
    [⟨.warning, .prover, "Wu elimination stopped: " ++ e.message⟩]

/-- Reduces the polynomials of the statement by the triangulated hypotheses. -/
def reduceWu (settings : Settings) (t : Transformation) (statements : List Polynomial) : Attempt :=
  if statements.isEmpty then
    .finished (.inconclusive "wu" "protocol has no theorem statement") t.protocol []
  else match Triangular.ofSystem settings.maxTerms t.system with
    | .error e => t.protocol.concludeStopped e
    | .ok system => .after system.events <|
      match statements.mapM (system.reduce settings.maxTerms) with
      | .error e => t.protocol.concludeStopped e
      | .ok remainders => concludeWu settings t system remainders

/-- Decides the statement by reducing it with the triangulated hypotheses. -/
def proveWu (p : Protocol) (settings : Settings) : Attempt :=
  .after [Transformation.startEvent p] <|
    match Transformation.run
      { protocol := p
        best := settings.useBestInstantiation
        align := settings.alignBasePoints } with
    | (some e, _) => .failed (.transform e) []
    | (none, t) =>
      match Transformation.statementPolynomials t.protocol with
      | .error e => .failed (.transform e) []
      | .ok statements => reduceWu settings t statements

/-- Decides a statement by the area method, that of the protocol unless another one is given. -/
def proveArea (p : Protocol) (settings : Settings) (statement : Option Area.Statement) : Attempt :=
  let m := Area.Prover.ofProtocol p settings
  let (outcome, s) := (m.prove statement).run { protocol := p, events := m.context.events }
  .after s.events <| match outcome with
    | .error e =>
      if e.isInconclusive then
        .finished (.inconclusive "area" e.message) s.protocol
          [⟨.info, .prover, "Area method is inconclusive: " ++ e.message⟩]
      else .failed (.area e) []
    | .ok proof =>
      if proof.holds then
        s.protocol.concludeHolds settings proof.nondegenerate (.holds "area")
      else s.protocol.concludeRefuted settings "area" (proof.polynomial.getD 0)

/-- Decides the statement of a protocol by the method of a name, `wu` or `area`; only the latter
takes an explicit statement. -/
def prove (p : Protocol) (method : String) (settings : Settings)
    (statement : Option Area.Statement) : Attempt :=
  .after [⟨.info, .prover, "Proving with " ++ method ++ " method over " ++ toString p.size ++
      " construction steps"⟩] <|
    match method with
    | "wu" =>
      if statement.isSome then .failed .explicitStatement [] else p.proveWu settings
    | "area" => p.proveArea settings statement
    | _ => .failed (.unknownMethod method) []

end Protocol

namespace Built

/-- Decides the statement of a protocol built from entries, or an explicit one. A faulty protocol
leaves its own statement open. -/
def prove (b : Built) (method : String) (settings : Settings)
    (statement : Option Area.Statement) : Attempt :=
  .after b.events <|
    if statement.isSome || b.diagnostics.isEmpty then b.protocol.prove method settings statement
    else
      let result := ProofResult.inconclusive method "construction protocol is invalid"
      .finished { result with diagnostics := b.report } b.protocol
        [⟨.warning, .prover,
          "Protocol has " ++ toString b.diagnostics.length ++ " rejected step(s)"⟩]

end Built
end Planimetry
