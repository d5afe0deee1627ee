import Planimetry.Transformation.Error

/-! Placing one point: fresh coordinates, then its conditions one by one. A condition that pins a
dependent coordinate to another variable renames the coordinate and is not kept. -/

namespace Planimetry

/-- A point on the way to its place, with the conditions kept so far and the factors that were
divided out. -/
structure Trial where
  point : Step
  hypotheses : List Polynomial := []
  factors : List Polynomial := []

namespace Protocol

/-- The coordinates of an object, where the label of a given step stands for that step. -/
def coordinatesFor (p : Protocol) (s : Step) (label : Label) : Option (Variable × Variable) :=
  if label = s.label then s.coordinates? else (p.get? label).bind Step.coordinates?

/-- The polynomial of a condition of a step. -/
def polynomialOf (p : Protocol) (s : Step) (c : Condition) : Except TransformError Polynomial :=
  match c.generators.find? fun g => (p.coordinatesFor s g).isNone with
  | some g => .error (.unplaced s.label g)
  | none =>
    (Template.instantiate (fun r => (c.roles.lookup r).bind (p.coordinatesFor s)) c.template).mapError
      (.missingRoles s.label)

/-- The first object, other than the step itself, that an alternative needs but has no coordinates. -/
def unplaced? (p : Protocol) (s : Step) (alternative : Alternative) : Option Label :=
  (alternative.flatMap Condition.generators).find? fun g =>
    g ≠ s.label && (p.coordinatesFor s g).isNone

/-- When base points are aligned, the second free point takes the second coordinate of the first. -/
def alignedY (p : Protocol) (align : Bool) (position : Nat) : Option Variable :=
  match p.steps.zipIdx.filter fun s => s.1.kind == .freePoint with
  | first :: second :: _ => if align && second.2 == position then first.1.placement.y else none
  | _ => none

/-- Fresh coordinates for the point at a position: as many free ones as its kind has. -/
def freshCoordinates (p : Protocol) (align : Bool) (position freeCoordinates : Nat) :
    (Variable × Variable) × Protocol :=
  match freeCoordinates with
  | 0 =>
    let (x, p) := p.nextDependent
    let (y, p) := p.nextDependent
    ((x, y), p)
  | 1 =>
    let (x, p) := p.nextFree
    let (y, p) := p.nextDependent
    ((x, y), p)
  | _ =>
    let (x, p') := p.nextFree
    match p.alignedY align position with
    | some y => ((x, y), p')
    | none =>
      let (y, p') := p'.nextFree
      ((x, y), p')

end Protocol

namespace Polynomial

/-- A variable to which a polynomial pins another one, as the only zero apart from those of the
factor in front. -/
def pinned? (p : Polynomial) (own : Variable) : Option Variable :=
  if own.isFree || p.degree own ≠ 1 then none
  else
    let a := p.coefficient own 1
    let b := p.coefficient own 0
    b.vars.find? fun w => w ≠ own && !a.vars.contains w && (a * ofVariable w + b).isZero

end Polynomial

namespace Trial

/-- A coordinate of the point that a polynomial pins to another variable; the first axis goes first. -/
def renaming? (t : Trial) (q : Polynomial) : Option (Axis × Variable × Variable) :=
  (t.point.placement.x.bind fun own => (q.pinned? own).map fun w => (Axis.x, own, w)) <|>
    (t.point.placement.y.bind fun own => (q.pinned? own).map fun w => (Axis.y, own, w))

/-- Renames a coordinate of the point in all that this trial has gathered. -/
def rename (t : Trial) (axis : Axis) (own target : Variable) (factor : Polynomial) : Trial :=
  let f (v : Variable) := if v = own then target else v
  let placement := t.point.placement
  let placed := match axis with
    | .x => { placement with x := some target, state := .renamed }
    | .y => { placement with y := some target, state := .renamed }
  { point := { t.point with placement := placed }
    hypotheses := (t.hypotheses.map (Polynomial.rename f)).filter fun h => !h.isZero
    factors := (t.factors ++ (if factor.isConstant then [] else [factor])).map (Polynomial.rename f) }

/-- Takes a condition: it vanishes, renames a coordinate, or is kept. -/
def absorb (t : Trial) (q : Polynomial) : Trial :=
  if q.isZero then t
  else match t.renaming? q with
    | some (axis, own, target) => t.rename axis own target (q.coefficient own 1)
    | none => { t with hypotheses := t.hypotheses ++ [q] }

/-- Takes conditions in order, up to the first that has no polynomial. -/
def meet (p : Protocol) (t : Trial) : List Condition → Trial × Option TransformError
  | [] => (t, none)
  | c :: cs =>
    match p.polynomialOf t.point c with
    | .error e => (t, some e)
    | .ok q => meet p (t.absorb q) cs

/-- A point with conditions of its own counts as modified unless a coordinate was renamed. -/
def settle (t : Trial) : Trial :=
  if t.hypotheses.isEmpty || t.point.placement.state ≠ .unchanged then t
  else { t with point := { t.point with placement := { t.point.placement with state := .modified } } }

/-- Places the point at a position by an alternative. -/
def run (p : Protocol) (align : Bool) (position : Nat) (s : Step) (alternative : Alternative) :
    Trial × Protocol × Option TransformError :=
  let (xy, p) := p.freshCoordinates align position s.kind.spec.freeCoordinates
  let placed := { s with placement := ⟨some xy.1, some xy.2, .unchanged⟩ }
  match meet p { point := placed } alternative with
  | (t, none) => (t.settle, p, none)
  | (t, some e) => (t, p, some e)

end Trial
end Planimetry
