import Planimetry.Transformation.Basic

/-! A protocol under work: steps are added and changed while its transformation goes on. -/

namespace Planimetry

/-- A protocol in transformation; the options of the pass stay open until it starts. -/
structure Workbench where
  work : Transformation := { protocol := {} }
  started : Bool := false

/-- A step of a protocol by its position, or the statement. -/
structure Target where
  position : Option Nat
  step : Step

/-- Why work on a protocol fails. -/
inductive WorkError where
  | rejected (rejection : Rejection)
  | transform (error : TransformError)
  | notAPoint
  | noAlternative
  deriving DecidableEq, Repr

namespace Workbench

def protocol (b : Workbench) : Protocol := b.work.protocol

def withProtocol (b : Workbench) (p : Protocol) : Workbench :=
  { b with work := { b.work with protocol := p } }

/-- Settles the options of the pass, the first time. -/
def start (b : Workbench) (best align : Bool) : Workbench :=
  if b.started then b else ⟨{ b.work with best, align }, true⟩

/-- Starts another pass over the same protocol, which goes on with the system or begins a new one. -/
def restart (b : Workbench) (keep best align : Bool) : Workbench :=
  let system := if keep then b.work.system else []
  ⟨{ protocol := b.protocol, system, best, align }, true⟩

/-- Takes the protocol that a step leads to, unless it is rejected. -/
def taking (b : Workbench) (s : Step) (r : Except Reason Protocol) : Except WorkError Workbench :=
  (r.map b.withProtocol).mapError fun e => .rejected (Protocol.rejection s e)

def append (b : Workbench) (s : Step) : Except WorkError Workbench :=
  b.taking s (b.protocol.append s)

def setStatement (b : Workbench) (s : Step) : Except WorkError Workbench :=
  b.taking s (b.protocol.setStatement s)

/-- Adds a copy of a point of another protocol without any check. -/
def addSeed (b : Workbench) (source : Protocol) (label : Label) : Except WorkError Workbench :=
  match (source.get? label).filter Step.isPoint with
  | some s => .ok (b.withProtocol (b.protocol.addSeed s))
  | none => .error .notAPoint

/-- The step with a label, or the statement if there is no label. -/
def target? (b : Workbench) : Option Label → Option Target
  | none => b.protocol.statement.map fun s => ⟨none, s⟩
  | some l => do
    let i ← b.protocol.position? l
    return ⟨some i, ← b.protocol.steps[i]?⟩

/-- Changes a step in place, without any check. -/
def change (b : Workbench) (t : Target) (f : Step → Step) : Workbench :=
  b.withProtocol <| match t.position with
    | some i => b.protocol.modify i f
    | none => { b.protocol with statement := some (f t.step) }

def alternatives (b : Workbench) (t : Target) : Except WorkError (List Alternative) :=
  (b.protocol.alternatives t.step).mapError fun e => .transform (.set e)

/-- The alternative at a position; a negative one counts from the back. -/
def alternative (b : Workbench) (t : Target) (i : Int) : Except WorkError Alternative := do
  match Listing.item? i (← b.alternatives t) with
  | some a => return a
  | none => .error .noAlternative

/-- The first of some alternatives that would rename a coordinate, out of those of the step unless
others are given. Only points can be tried. -/
def best? (b : Workbench) (t : Target) (choices : Option (List Alternative)) :
    Except WorkError (Option Nat) := do
  let choices ← match choices with
    | some c => pure c
    | none => b.alternatives t
  match t.position with
  | some i =>
    if choices.isEmpty || t.step.isPoint then return b.work.best? i t.step choices
    else .error .notAPoint
  | none => if choices.isEmpty then return none else .error .notAPoint

/-- Adds the conditions of a step to the system. -/
def transform (b : Workbench) (t : Target) (a : Option Alternative) :
    Except WorkError (List Polynomial) × Workbench :=
  match t.position with
  | some i =>
    let (r, work) := b.work.transform i a
    (r.mapError .transform, { b with work })
  | none => (.error (.transform (.statement t.step.label)), b)

end Workbench
end Planimetry
