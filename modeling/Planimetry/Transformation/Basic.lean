import Planimetry.Event
import Planimetry.Transformation.Trial

/-! The pass that gives every point of a protocol its coordinates and collects the hypotheses. -/

namespace Planimetry

/-- A polynomial with the label of the step that gave rise to it. -/
structure Hypothesis where
  polynomial : Polynomial
  source : Label
  deriving DecidableEq

/-- A protocol in the course of the pass, with the hypotheses and the factors that renaming needs
nonzero, both in order. -/
structure Transformation where
  protocol : Protocol
  system : List Hypothesis := []
  factors : List Hypothesis := []
  best : Bool := true
  align : Bool := false

namespace Transformation

/-- Cuts the system down to a number of hypotheses; a negative one counts those that go. -/
def truncate (t : Transformation) (n : Int) : Transformation :=
  { t with system := Listing.front n t.system }

/-- Records the outcome of a trial at a position. -/
def commit (t : Transformation) (position : Nat) (trial : Trial) (p : Protocol) : Transformation :=
  { t with
    protocol := p.modify position fun _ => trial.point
    system := t.system ++ trial.hypotheses.map fun q => ⟨q, trial.point.label⟩
    factors := t.factors ++ trial.factors.map fun q => ⟨q, trial.point.label⟩ }

/-- Places a point by an alternative. A condition without a polynomial stops the work there, and
what was done before it stays. -/
def placeBy (t : Transformation) (position : Nat) (s : Step) (alternative : Alternative) :
    Except TransformError (List Polynomial) × Transformation :=
  match t.protocol.unplaced? s alternative with
  | some g => (.error (.unplaced s.label g), t)
  | none =>
    let (trial, p, error?) := Trial.run t.protocol t.align position s alternative
    (match error? with
      | some e => .error e
      | none => .ok trial.hypotheses, t.commit position trial p)

/-- The alternative for a point if none is chosen. -/
def defaultAlternative (p : Protocol) (s : Step) : Except TransformError Alternative := do
  match ← (p.alternatives s).mapError .set with
  | [] => if s.kind.hasConditions then .error (.noGenerators s.label) else return []
  | first :: _ => return first

/-- Adds the conditions of the step at a position to the system; lines and circles have none. -/
def transform (t : Transformation) (position : Nat) (alternative : Option Alternative) :
    Except TransformError (List Polynomial) × Transformation :=
  match t.protocol.steps[position]? with
  | none => (.ok [], t)
  | some s => match s.construction with
    | .statement _ => (.error (.statement s.label), t)
    | .set _ => (.ok [], t)
    | .point _ => match alternative with
      | some a => t.placeBy position s a
      | none => match defaultAlternative t.protocol s with
        | .error e => (.error e, t)
        | .ok a => t.placeBy position s a

/-- Whether an alternative would rename a coordinate of the point at a position. -/
def renames (t : Transformation) (position : Nat) (s : Step) (alternative : Alternative) : Bool :=
  match t.protocol.unplaced? s alternative with
  | some _ => false
  | none => match Trial.run t.protocol t.align position s alternative with
    | (trial, _, none) => trial.point.placement.state = .renamed
    | (_, _, some _) => false

/-- The first alternative that would rename a coordinate of the point at a position. -/
def best? (t : Transformation) (position : Nat) (s : Step) (alternatives : List Alternative) :
    Option Nat :=
  alternatives.findIdx? (t.renames position s)

/-- The alternative that the pass takes where there is a choice. -/
def choice (t : Transformation) (position : Nat) (s : Step) :
    Except TransformError (Option Alternative) := do
  if s.isPoint && t.best then
    let alternatives ← (t.protocol.alternatives s).mapError .set
    if alternatives.length ≤ 1 then return none
    else return alternatives[(t.best? position s alternatives).getD 0]?
  else return none

/-- Transforms the step at a position unless it is a point that has coordinates already. -/
def advance (t : Transformation) (position : Nat) :
    Except TransformError (List Polynomial) × Transformation :=
  match t.protocol.steps[position]? with
  | none => (.ok [], t)
  | some s =>
    if s.isPlaced then (.ok [], t)
    else match t.choice position s with
      | .error e => (.error e, t)
      | .ok a => t.transform position a

/-- Transforms the steps at the given positions, up to the first that fails. -/
def advanceAll (t : Transformation) : List Nat → Option TransformError × Transformation
  | [] => (none, t)
  | i :: is => match t.advance i with
    | (.error e, t) => (some e, t)
    | (.ok _, t) => advanceAll t is

/-- Transforms all steps in order. -/
def run (t : Transformation) : Option TransformError × Transformation :=
  t.advanceAll (List.range t.protocol.size)

/-- The polynomials that vanish where the statement holds; none if there is no statement. -/
def statementPolynomials (p : Protocol) : Except TransformError (List Polynomial) := do
  match p.statement with
  | none => return []
  | some s =>
    match ((p.alternatives s).toOption.getD []).head? with
    | none => return []
    | some alternative =>
      match p.unplaced? s alternative with
      | some g => .error (.unplaced s.label g)
      | none => alternative.mapM (p.polynomialOf s)

def startEvent (p : Protocol) : Event :=
  ⟨.info, .transformation, "Transforming protocol with " ++ toString p.size ++ " steps"⟩

end Transformation
end Planimetry
