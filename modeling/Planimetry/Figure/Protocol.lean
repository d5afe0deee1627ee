import Planimetry.Figure.Step

/-! Construction protocols: steps in the order of construction, each built on earlier ones only. -/

namespace Planimetry

/-- The steps taken so far, the statement about them, and the indices of the next variables. -/
structure Protocol where
  steps : List Step := []
  statement : Option Step := none
  freeIndex : Int := 1
  dependentIndex : Int := 1
  deriving DecidableEq, Repr

namespace Protocol

def size (p : Protocol) : Nat := p.steps.length

def points (p : Protocol) : List Step := p.steps.filter Step.isPoint

/-- The position of the step with a label; of two such steps the later one counts. -/
def position? (p : Protocol) (label : Label) : Option Nat :=
  (p.steps.zipIdx.reverse.find? fun s => s.1.label == label).map Prod.snd

def get? (p : Protocol) (label : Label) : Option Step :=
  p.steps.reverse.find? fun s => s.label == label

def contains (p : Protocol) (label : Label) : Bool := (p.get? label).isSome

/-- Changes the step at a position. -/
def modify (p : Protocol) (position : Nat) (f : Step → Step) : Protocol :=
  { p with steps := p.steps.modify position f }

def nextFree (p : Protocol) : Variable × Protocol :=
  (.free p.freeIndex, { p with freeIndex := p.freeIndex + 1 })

def nextDependent (p : Protocol) : Variable × Protocol :=
  (.dependent p.dependentIndex, { p with dependentIndex := p.dependentIndex + 1 })

/-- The members of a line or circle with an index from zero to below a bound. -/
def knownMembers (p : Protocol) (set : Step) (before : Int) : List Label :=
  set.members.filter fun l => match p.get? l with
    | some m => 0 ≤ m.index && m.index < before
    | none => false

/-- What is wrong with the object in a role. -/
def roleFault? (p : Protocol) (before : Int) (role : Label) (expected : Expectation)
    (label : Label) : Option Reason :=
  match p.get? label with
  | none => some (.unknownObject label)
  | some t =>
    if before ≤ t.index then some (.notEarlier label t.index before)
    else if expected.accepts t.category then none
    else some (.wrongCategory role expected label t.category)

/-- The labels in roles that must differ, if they do not. -/
def distinctFault? (c : Construction) : Option Reason :=
  let labels := c.kind.spec.distinct.map c.argument
  if labels.Nodup then none else some (.notDistinct labels)

/-- A line parallel or perpendicular to another needs two known points there, and a ray that
completes angles to sixty degrees needs the parameter of that angle. -/
def kindFault? (p : Protocol) : Construction → Option Reason
  | .set (.parallel _ l) | .set (.perpendicular _ l) =>
    match p.get? l with
    | some base => if (p.knownMembers base p.size).length < 2 then some (.bareLine base.label) else none
    | none => none
  | .set (.angleRayToSixty _ _ _ _ _ _ _ _ t) =>
    match p.get? t with
    | some angle => if angle.kind = .angleOfSixty then none else some (.wrongAngle angle.kind)
    | none => none
  | _ => none

/-- The first fault of a construction that is to stand before an index. -/
def fault? (p : Protocol) (c : Construction) (before : Int) : Option Reason :=
  ((c.kind.spec.roles.zip c.arguments).findSome? fun r => p.roleFault? before r.1.1 r.1.2 r.2) <|>
    distinctFault? c <|> p.kindFault? c

/-- Checks a step against its own index, or against the next one if it has none yet. -/
def validate (p : Protocol) (s : Step) : Option Reason :=
  p.fault? s.construction (if 0 ≤ s.index then s.index else p.size)

/-- Makes a step the statement of the protocol. -/
def setStatement (p : Protocol) (s : Step) : Except Reason Protocol :=
  if s.category = .statement then
    match p.fault? s.construction p.size with
    | some r => .error r
    | none => .ok { p with statement := some { s with index := p.size } }
  else .error .notAStatement

/-- Records a point on the sets on which it was constructed. -/
def join (p : Protocol) (point : Label) (sets : List Label) : Protocol :=
  sets.foldl (fun p set => match p.position? set with
    | some i => p.modify i fun s =>
      if s.members.contains point then s else { s with members := s.members ++ [point] }
    | none => p) p

/-- Appends a step, or makes it the statement if it is one; a faulty step changes nothing. -/
def append (p : Protocol) (s : Step) : Except Reason Protocol :=
  if s.category = .statement then p.setStatement s
  else if p.contains s.label then .error .labelUsed
  else match p.fault? s.construction p.size with
    | some r => .error r
    | none =>
      let spec := s.kind.spec
      let taken := { s with index := p.size, members := spec.members.map s.argument }
      .ok (join { p with steps := p.steps ++ [taken] } s.label (spec.onSets.map s.argument))

/-- Appends a copy of a point without any check. -/
def addSeed (p : Protocol) (s : Step) : Protocol :=
  { p with steps := p.steps ++ [{ s.detached with index := p.size }] }

/-- Wraps the fault of a step as its rejection. -/
def rejection (s : Step) (r : Reason) : Rejection := ⟨s.label, s.kind.name, r⟩

/-- The steps, and last the statement, that no longer pass their check. -/
def failures (p : Protocol) : List (Label × Rejection) :=
  (p.steps ++ p.statement.toList).filterMap fun s =>
    (p.validate s).map fun r => (s.label, rejection s r)

end Protocol
end Planimetry
