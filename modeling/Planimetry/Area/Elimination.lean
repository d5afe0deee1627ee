import Planimetry.Area.Definition
import Planimetry.Area.Operand
import Planimetry.Figure.Condition

/-! Elimination lemmas: quantities of a constructed point in terms of the points that define it. -/

namespace Planimetry.Area

namespace Rule

def area (a b c : Label) : Expr := .atom (.area a b c)

def pythagoras (a b c : Label) : Expr := .atom (.pythagoras a b c)

/-- The sum of a term and further terms, in right-associative form. -/
def sum (e : Expr) : List Expr → Expr
  | [] => e
  | f :: fs => .add e (sum f fs)

/-- The sum of a list of terms. -/
def total : List Expr → Expr
  | [] => .zero
  | e :: es => sum e es

/-- The weighted sum of a quantity over the points of a rule. -/
def average (weights : List (Label × Expr)) (quantity : Label → Expr) : Expr :=
  total (weights.map fun w => .mul w.2 (quantity w.1))

/-- The area of `a`, `b` and the defined point. -/
def areaWith (a b : Label) : Rule → Expr
  | .affine weights => average weights (area a b)
  | .turn p u v r =>
    .sub (area a b p)
      (.mul (.mul (.number (1 / 4)) r) (.sub (pythagoras a u v) (pythagoras b u v)))

/-- The Pythagoras difference from `a` over `b` to the defined point. -/
def pythagorasWith (a b : Label) : Rule → Expr
  | .affine weights => average weights (pythagoras a b)
  | .turn p u v r =>
    .add (pythagoras a b p) (.mul (.mul (.number 4) r) (.sub (area u v a) (area u v b)))

/-- The Pythagoras difference from `a` over the defined point to `c`. -/
def pythagorasAt (a c : Label) : Rule → Expr
  | .affine weights =>
    total ((weights.map fun w => .mul w.2 (pythagoras a w.1 c)) ++
      (pairs weights).map fun w => .neg (.mul (.mul w.1.2 w.2.2) (pythagoras w.1.1 w.2.1 w.1.1)))
  | .turn p u v r =>
    .add
      (.sub (pythagoras a p c)
        (.mul (.mul (.number 4) r)
          (.sub (.add (area u v a) (area u v c)) (.mul (.number 2) (area u v p)))))
      (.mul (.mul r r) (pythagoras u v u))

end Rule

namespace Definition

/-- The value of a signed area in which the defined point occurs. -/
def area (d : Definition) (a b c : Label) : Except Error Expr :=
  match a == d.point, b == d.point, c == d.point with
  | true, false, false => .ok (d.rule.areaWith b c)
  | false, true, false => .ok (d.rule.areaWith c a)
  | false, false, true => .ok (d.rule.areaWith a b)
  | false, false, false => .error (.notMentioned (.area a b c) d.point)
  | _, _, _ => .ok .zero

/-- The value of a Pythagoras difference in which the defined point occurs. -/
def pythagoras (d : Definition) (a b c : Label) : Expr :=
  if b = d.point then
    if a = d.point || c = d.point then .zero else d.rule.pythagorasAt a c
  else if a = d.point && c = d.point then d.rule.pythagorasAt b b
  else if c = d.point then d.rule.pythagorasWith a b
  else d.rule.pythagorasWith c b

/-- The value of a quantity in which the defined point occurs. -/
def eliminate (d : Definition) : Quantity → Except Error Expr
  | .area a b c => d.area a b c
  | .pythagoras a b c => .ok (d.pythagoras a b c)
  | .ratio a b u v => .error (.noLemma (Quantity.ratio a b u v).text d.point)

end Definition

/-- Computations that record the points whose definitions they use, also when they fail. -/
abbrev Using := ExceptT Error (StateM (List Label))

namespace Context

/-- The definition of a point that is to be eliminated. -/
def definition (c : Context) (point : Label) : Except Error Definition :=
  match c.unsupported.lookup point with
  | some r => .error (.unsupported point r)
  | none => match c.find? point with
    | some d => .ok d
    | none => .error (.notConstructed point)

/-- Records the use of a definition, the first time. -/
def recordUse (point : Label) : Using Unit :=
  modify fun used => if used.contains point then used else used ++ [point]

/-- The value of a quantity by the definition of a point in it. -/
def eliminateQuantity (c : Context) (q : Quantity) (point : Label) : Using Expr := do
  let d ← c.definition point
  recordUse point
  d.eliminate q

/-- The value of an operand by the definition of a point; only quantities have one. -/
def eliminateRoot (c : Context) (point : Label) : Operand → Using Expr
  | .expression (.atom q) => c.eliminateQuantity q point
  | a => do
    let _ ← c.definition point
    recordUse point
    throw (.noLemma a.text point)

/-- Eliminates a point from a quantity that it concerns. -/
def eliminateAtom (c : Context) (q : Quantity) (point : Label) : Using Expr := do
  if ← c.concerns point q then c.eliminateQuantity q point else return .atom q

/-- Eliminates a point from all quantities of an expression, and keeps its markers. -/
def eliminateAtoms (c : Context) (point : Label) : Expr → Using Expr
  | .number q => return .number q
  | .atom q => c.eliminateAtom q point
  | .add l r => return .add (← c.eliminateAtoms point l) (← c.eliminateAtoms point r)
  | .sub l r => return .sub (← c.eliminateAtoms point l) (← c.eliminateAtoms point r)
  | .mul l r => return .mul (← c.eliminateAtoms point l) (← c.eliminateAtoms point r)
  | .div n d => return .div (← c.eliminateAtoms point n) (← c.eliminateAtoms point d)
  | .neg e => return .neg (← c.eliminateAtoms point e)
  | .elim e p => return .elim (← c.eliminateAtoms point e) p

/-- Eliminates a point, after the points of the markers inside. -/
def eliminate (c : Context) : Expr → Label → Using Expr
  | .number q, _ => return .number q
  | .atom q, point => c.eliminateAtom q point
  | .add l r, point => return .add (← c.eliminate l point) (← c.eliminate r point)
  | .sub l r, point => return .sub (← c.eliminate l point) (← c.eliminate r point)
  | .mul l r, point => return .mul (← c.eliminate l point) (← c.eliminate r point)
  | .div n d, point => return .div (← c.eliminate n point) (← c.eliminate d point)
  | .neg e, point => return .neg (← c.eliminate e point)
  | .elim e p, point => do c.eliminateAtoms point (← c.eliminate e p)

/-- Eliminates a point from a tree; leaves other than expressions have nothing to eliminate. -/
def eliminateOperand (c : Context) : Operand → Label → Using Expr
  | .expression e, point => c.eliminate e point
  | .joined how l r, point =>
    return how.node (← c.eliminateOperand l point) (← c.eliminateOperand r point)
  | .negated a, point => return .neg (← c.eliminateOperand a point)
  | .marked a p, point => do c.eliminateAtoms point (← c.eliminateOperand a p)
  | a, _ => throw (.notExpression a.typeName)

/-- Whether a point is left to eliminate from a tree. -/
def mentionsOperand (c : Context) (point : Label) : Operand → Except Error Bool
  | .expression e => c.mentions point e
  | .joined _ l r => do
    if ← c.mentionsOperand point l then return true else c.mentionsOperand point r
  | .negated a => c.mentionsOperand point a
  | .marked a p => if p = point then .ok true else c.mentionsOperand point a
  | a => .error (.notExpression a.typeName)

end Context
end Planimetry.Area
