import Planimetry.Area.Operation
import Planimetry.Area.Quantity
import Planimetry.Text.Rational

/-! Expressions of the area method: trees over numbers and geometric quantities. -/

namespace Planimetry.Area

/-- The marker `elim e p` stands for `e` once the point `p` is eliminated from it. -/
inductive Expr where
  | number (value : Rat)
  | atom (quantity : Quantity)
  | add (left right : Expr)
  | sub (left right : Expr)
  | mul (left right : Expr)
  | div (numerator denominator : Expr)
  | neg (e : Expr)
  | elim (e : Expr) (point : Label)
  deriving DecidableEq, Inhabited

/-- The expression that an operation joins from two. -/
def Operation.node : Operation → Expr → Expr → Expr
  | .add => .add
  | .sub => .sub
  | .mul => .mul
  | .div => .div

namespace Expr

def zero : Expr := .number 0

def one : Expr := .number 1

def minusOne : Expr := .number (-1)

def isZero : Expr → Bool
  | .number q => q == 0
  | _ => false

def isOne : Expr → Bool
  | .number q => q == 1
  | _ => false

/-- The text of a negation. -/
def negText (s : String) : String := "-" ++ s

/-- The text of a marker for a point to eliminate. -/
def markText (s : String) (point : Label) : String := "elim[" ++ point ++ "](" ++ s ++ ")"

/-- The number of nodes. -/
def size : Expr → Nat
  | .number _ | .atom _ => 1
  | .add l r | .sub l r | .mul l r | .div l r => 1 + l.size + r.size
  | .neg e | .elim e _ => 1 + e.size

/-- The labels in the quantities, from left to right. -/
def labels : Expr → List Label
  | .number _ => []
  | .atom q => q.labels
  | .add l r | .sub l r | .mul l r | .div l r => l.labels ++ r.labels
  | .neg e | .elim e _ => e.labels

/-- The points in the quantities, each once, in ascending order. -/
def points (e : Expr) : List Label := e.labels.eraseDups.mergeSort

/-- Renames points; the shape of the tree stays. -/
def relabel (f : Label → Label) : Expr → Expr
  | .number q => .number q
  | .atom q => .atom (q.relabel f)
  | .add l r => .add (l.relabel f) (r.relabel f)
  | .sub l r => .sub (l.relabel f) (r.relabel f)
  | .mul l r => .mul (l.relabel f) (r.relabel f)
  | .div n d => .div (n.relabel f) (d.relabel f)
  | .neg e => .neg (e.relabel f)
  | .elim e p => .elim (e.relabel f) (f p)

/-- Negative numbers stand in parentheses. -/
def text : Expr → String
  | .number q => if q < 0 then "(" ++ rationalText q ++ ")" else rationalText q
  | .atom q => q.text
  | .add l r => Operation.add.text l.text r.text
  | .sub l r => Operation.sub.text l.text r.text
  | .mul l r => Operation.mul.text l.text r.text
  | .div n d => Operation.div.text n.text d.text
  | .neg e => negText e.text
  | .elim e p => markText e.text p

end Expr
end Planimetry.Area
