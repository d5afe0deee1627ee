import Planimetry.Area.Orientation
import Planimetry.Event

/-! Definitions of constructed points for the area method, as weighted sums of earlier points or as
points on a perpendicular. -/

namespace Planimetry.Area

/-- The place of a point: a sum of points with weights that add up to one, or `base` plus `ratio`
times the vector from `u` to `v` turned by a right angle. -/
inductive Rule where
  | affine (weights : List (Label × Expr))
  | turn (base u v : Label) (ratio : Expr)
  deriving DecidableEq

/-- The rule of a point, with the denominators in it and the ratio that may be chosen freely. -/
structure Definition where
  point : Label
  rule : Rule
  denominators : List Expr := []
  parameter : Option Quantity := none
  description : String
  deriving DecidableEq

/-- The definitions of constructed points in the order of construction, the last one first; the
points that have none; and the free ratios in canonical orientation. -/
structure Context where
  freePoints : List Label := []
  order : List Label := []
  definitions : List Definition := []
  unsupported : List (Label × Unsupported) := []
  parameters : List (Option Quantity) := []
  deriving DecidableEq

namespace Rule

/-- Adds a weight to that of the same point. -/
def addWeight (p : Label) (w : Expr) : List (Label × Expr) → List (Label × Expr)
  | [] => [(p, w)]
  | (q, v) :: rest => if q = p then (q, .add v w) :: rest else (q, v) :: addWeight p w rest

/-- The weighted sum of some points, each with one weight. -/
def weighted (weights : List (Label × Expr)) : Rule :=
  .affine (weights.foldl (fun ws w => addWeight w.1 w.2 ws) [])

/-- The image of a point under the shift that takes `a` to `b`. -/
def shifted (p a b : Label) : Rule :=
  weighted [(p, .number 1), (b, .number 1), (a, .number (-1))]

/-- The point that divides the segment from `a` to `b` in a ratio to the whole. -/
def between (a b : Label) (ratio : Expr) : Rule := weighted [(a, .sub .one ratio), (b, ratio)]

end Rule

namespace Context

def find? (c : Context) (p : Label) : Option Definition :=
  c.definitions.find? fun d => d.point == p

def defines (c : Context) (p : Label) : Bool := (c.find? p).isSome

def insert (c : Context) (d : Definition) : Context :=
  { c with
    order := c.order ++ [d.point]
    definitions := d :: c.definitions
    parameters := match d.parameter.map Quantity.orient with
      | some (.ok o) => c.parameters ++ [o.quantity]
      | _ => c.parameters }

/-- Adds the second point of a line unless it is there. -/
def insertSecond (c : Context) (line second : Label) (rule : Rule) : Context :=
  if c.defines second then c
  else c.insert { point := second, rule, description := "Second point of line " ++ line }

/-- The label of the second point of a line through a given one. -/
def secondLabel (through line : Label) : Label := through ++ "[" ++ line ++ "]"

/-- Two points that span a line. A line parallel or perpendicular to another gets a second point.
As a line refers to earlier ones only, as many levels as there are steps suffice. -/
def span (p : Protocol) : Nat → Label → Context → Except Unsupported (Label × Label) × Context
  | 0, l, c => (.error (.unknownLine l), c)
  | depth + 1, l, c =>
    match p.get? l with
    | none => (.error (.unknownLine l), c)
    | some s => match s.construction with
      | .set (.lineThrough a b) => (.ok (a, b), c)
      | .set (.parallel through line) =>
        let second := secondLabel through l
        match span p depth line c with
        | (.ok (a, b), c) =>
          (.ok (through, second), c.insertSecond l second (.shifted through a b))
        | failed => failed
      | .set (.perpendicular through line) =>
        let second := secondLabel through l
        match span p depth line c with
        | (.ok (a, b), c) =>
          (.ok (through, second), c.insertSecond l second (.turn through a b .one))
        | failed => failed
      | _ => (.error (.notSpanned l s.kind), c)

/-- Two points that span a line of the protocol. -/
def line (p : Protocol) (l : Label) (c : Context) : Except Unsupported (Label × Label) × Context :=
  span p p.size l c

/-- The rule, denominators and parameter of a constructed point. -/
def ruleOf (p : Protocol) (own : Label) (c : Context) :
    PointRule → Except Unsupported (Rule × List Expr × Option Quantity) × Context
  | .midpoint a b => (.ok (.weighted [(a, .number (1 / 2)), (b, .number (1 / 2))], [], none), c)
  | .shifted q a b => (.ok (.shifted q a b, [], none), c)
  | .symmetric q o => (.ok (.weighted [(o, .number 2), (q, .number (-1))], [], none), c)
  | .rotated q o => (.ok (.turn o o q .one, [], none), c)
  | .foot q a b =>
    let base := Expr.atom (.pythagoras a b a)
    (.ok (.between a b (.div (.atom (.pythagoras q a b)) base), [base], none), c)
  | .intersection l m =>
    match line p l c with
    | (.error e, c) => (.error e, c)
    | (.ok (u, v), c) => match line p m c with
      | (.error e, c) => (.error e, c)
      | (.ok (a, b), c) =>
        let atA := Expr.atom (.area a u v)
        let atB := Expr.atom (.area b u v)
        let denominator := Expr.sub atA atB
        (.ok (.weighted [(b, .div atA denominator), (a, .div (.neg atB) denominator)],
          [denominator], none), c)
  | .onLine l =>
    match line p l c with
    | (.error e, c) => (.error e, c)
    | (.ok (u, v), c) =>
      let ratio := Quantity.ratio u own u v
      (.ok (.between u v (.atom ratio), [], some ratio), c)
  | rule => (.error (.notAffine (Construction.point rule).kind), c)

/-- Takes a step of a protocol: free points are recorded, other points defined if they can be. -/
def take (p : Protocol) (c : Context) (s : Step) : Context :=
  match s.construction with
  | .point .free => { c with freePoints := c.freePoints ++ [s.label] }
  | .point rule => match ruleOf p s.label c rule with
    | (.ok (r, denominators, parameter), c) =>
      c.insert { point := s.label, rule := r, denominators, parameter, description := s.describe }
    | (.error e, c) =>
      { c with order := c.order ++ [s.label], unsupported := c.unsupported ++ [(s.label, e)] }
  | _ => c

/-- The definitions for all points of a protocol. -/
def ofProtocol (p : Protocol) : Context := p.steps.foldl (take p) {}

/-- Tells of the points without a definition. -/
def events (c : Context) : List Event :=
  c.unsupported.map fun u => ⟨.info, .areaElimination,
    "No elimination lemma for " ++ u.1 ++ ": " ++ u.2.message⟩

/-- Whether a quantity is a ratio that may be chosen freely. -/
def isParameter (c : Context) : Quantity → Except Error Bool
  | .ratio u v w x => return c.parameters.contains (← (Quantity.ratio u v w x).orient).quantity
  | _ => .ok false

/-- Whether a quantity other than a free ratio contains a point. -/
def concerns (c : Context) (point : Label) (q : Quantity) : Except Error Bool :=
  if q.mentions point then return !(← c.isParameter q) else .ok false

/-- Whether a point is left to eliminate from an expression. -/
def mentions (c : Context) (point : Label) : Expr → Except Error Bool
  | .number _ => .ok false
  | .atom q => c.concerns point q
  | .add l r | .sub l r | .mul l r | .div l r => do
    if ← c.mentions point l then return true else c.mentions point r
  | .neg e => c.mentions point e
  | .elim e p => if p = point then .ok true else c.mentions point e

/-- The denominators that eliminating a point brings in. -/
def denominators (c : Context) (point : Label) : List Expr :=
  ((c.find? point).map Definition.denominators).getD []

end Context
end Planimetry.Area
