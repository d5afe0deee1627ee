import Planimetry.Figure.Construction
import Planimetry.Text.Quoted

/-! Steps of a construction protocol, and the reasons for which a step is rejected. -/

namespace Planimetry

/-- Whether the coordinates of a point are untouched, renamed, or bound by hypotheses. -/
inductive PointState where
  | unchanged
  | renamed
  | modified
  deriving DecidableEq, Repr, Inhabited

/-- The coordinate variables of a point. -/
structure Placement where
  x : Option Variable := none
  y : Option Variable := none
  state : PointState := .unchanged
  deriving DecidableEq, Repr, Inhabited

/-- A labelled construction. Its index is negative until a protocol takes it, its members are the
known points on a line or circle, and only points are ever placed. -/
structure Step where
  label : Label
  construction : Construction
  index : Int := -1
  members : List Label := []
  placement : Placement := {}
  deriving DecidableEq, Repr

/-- Why a step is rejected. -/
inductive Reason where
  | unknownKind
  | missingRoles (roles : List Label)
  | surplusRoles (roles : List Label)
  | labelUsed
  | notAStatement
  | unknownObject (dependency : Label)
  | notEarlier (dependency : Label) (index before : Int)
  | wrongCategory (role : Label) (expected : Expectation) (dependency : Label) (found : Category)
  | notDistinct (labels : List Label)
  | bareLine (base : Label)
  | wrongAngle (found : Kind)
  deriving DecidableEq, Repr

/-- A rejected step, with the name of its kind as it was given. -/
structure Rejection where
  label : Label
  kind : String
  reason : Reason
  deriving DecidableEq, Repr

namespace PointState

def name : PointState → String
  | .unchanged => "unchanged"
  | .renamed => "renamed"
  | .modified => "modified"

end PointState

namespace Placement

/-- Both coordinates, if the point has them. -/
def coordinates? (p : Placement) : Option (Variable × Variable) :=
  match p.x, p.y with
  | some x, some y => some (x, y)
  | _, _ => none

end Placement

namespace Step

def kind (s : Step) : Kind := s.construction.kind

def category (s : Step) : Category := s.construction.category

def argument (s : Step) (role : Label) : Label := s.construction.argument role

def dependencies (s : Step) : List Label := s.construction.dependencies

def describe (s : Step) : String := s.construction.describe s.label

def isPoint (s : Step) : Bool := s.category == .point

/-- The coordinates of a point that has both. -/
def coordinates? (s : Step) : Option (Variable × Variable) :=
  if s.isPoint then s.placement.coordinates? else none

def isPlaced (s : Step) : Bool := s.coordinates?.isSome

/-- A step apart from any protocol: same label, index and coordinates, but no members. -/
def detached (s : Step) : Step := { s with members := [] }

/-- The step of a kind given by name, whose payload must give each role of the kind and no other. -/
def make (label : Label) (kind : String) (payload : List (Label × Label)) : Except Rejection Step :=
  let reject (r : Reason) : Except Rejection Step := .error ⟨label, kind, r⟩
  match Kind.ofName? kind with
  | none => reject .unknownKind
  | some k =>
    match k.roleNames.filter fun r => (payload.lookup r).isNone with
    | [] =>
      match (payload.map Prod.fst).filter fun r => !k.roleNames.contains r with
      | [] => .ok { label, construction := .ofKind k fun r => (payload.lookup r).getD "" }
      | surplus => reject (.surplusRoles surplus)
    | missing => reject (.missingRoles missing)

end Step

namespace Reason

/-- The object on which the rejection rests. -/
def dependency : Reason → Option Label
  | .unknownObject d => some d
  | .notEarlier d _ _ => some d
  | .wrongCategory _ _ d _ => some d
  | _ => none

/-- Whether a dependency is absent or not constructed strictly earlier. -/
def isOrder : Reason → Bool
  | .unknownObject _ => true
  | .notEarlier .. => true
  | _ => false

def message (label : Label) (kind : String) : Reason → String
  | .unknownKind => "unknown construction kind " ++ Text.quoted kind
  | .missingRoles rs => kind ++ " " ++ label ++ " is missing role(s) " ++ ", ".intercalate rs
  | .surplusRoles rs => kind ++ " " ++ label ++ " does not take role(s) " ++ ", ".intercalate rs
  | .labelUsed => "label " ++ label ++ " is already used"
  | .notAStatement => kind ++ " is not a theorem statement"
  | .unknownObject d => label ++ " references unknown object " ++ d
  | .notEarlier d i b =>
    label ++ " references " ++ d ++ " which is constructed at index " ++ toString i ++
      ", not before " ++ toString b
  | .wrongCategory r e d c =>
    "role " ++ r ++ " of " ++ label ++ " expects a " ++ e.name ++ ", " ++ d ++ " is a " ++ c.name
  | .notDistinct ls => label ++ " needs distinct " ++ ", ".intercalate ls
  | .bareLine b => "base line " ++ b ++ " of " ++ label ++ " needs two known points"
  | .wrongAngle k => label ++ " needs a 60 degree angle parameter, got " ++ k.name

end Reason

namespace Rejection

def message (r : Rejection) : String := r.reason.message r.label r.kind

def dependency (r : Rejection) : Option Label := r.reason.dependency

def isOrder (r : Rejection) : Bool := r.reason.isOrder

/-- The rejection as one line of a report. -/
def report (r : Rejection) : String := "[" ++ r.label ++ " " ++ r.kind ++ "] " ++ r.message

end Rejection
end Planimetry
