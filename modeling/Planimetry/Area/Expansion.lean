import Planimetry.Area.Orientation
import Planimetry.Area.RightAssociative
import Planimetry.Area.SingleFraction
import Planimetry.Sparse

/-! Expanded form: sums of products of canonical quantities, with like products collected. -/

namespace Planimetry.Area

/-- Canonical quantities in ascending order, each as often as it occurs as a factor. -/
abbrev Factors := List Quantity

abbrev Expansion := Sparse Factors Rat

namespace Expansion

def constant (c : Rat) : Expansion := Sparse.single [] c

def ofOriented (o : Oriented) : Expansion := Sparse.single o.quantity.toList o.factor

def ofQuantity (q : Quantity) : Except Error Expansion := return ofOriented (← q.orient)

def scale (c : Rat) (s : Expansion) : Expansion :=
  Sparse.ofList (s.entries.map fun t => (t.1, t.2 * c))

def neg (s : Expansion) : Expansion := s.scale (-1)

def sub (s t : Expansion) : Expansion := s + t.neg

/-- The factors of two products in one ascending list. -/
def mulFactors (f g : Factors) : Factors := List.merge f g fun q r => (compare q r).isLE

def mul (s t : Expansion) : Expansion :=
  Sparse.ofList (s.entries.flatMap fun a => t.entries.map fun b => (mulFactors a.1 b.1, a.2 * b.2))

def isConstant (s : Expansion) : Bool := s.entries.all fun t => t.1.isEmpty

def constantValue (s : Expansion) : Rat := s.get []

/-- The points in the quantities, each once, in ascending order. -/
def points (s : Expansion) : List Label :=
  (s.keys.flatMap fun f => f.flatMap Quantity.labels).eraseDups.mergeSort

/-- The product of a first factor and quantities. -/
def product (e : Expr) : Factors → Expr
  | [] => e
  | q :: qs => .mul e (product (.atom q) qs)

/-- A product with its coefficient in front, unless that is one. -/
def termExpr (t : Factors × Rat) : Expr :=
  match t.1 with
  | [] => .number t.2
  | q :: qs => if t.2 = 1 then product (.atom q) qs else product (.number t.2) (q :: qs)

/-- The sum of a first term and further terms. -/
def sumExpr (e : Expr) : List (Factors × Rat) → Expr
  | [] => e
  | t :: ts => .add e (sumExpr (termExpr t) ts)

def expression (s : Expansion) : Expr :=
  match s.entries with
  | [] => .zero
  | t :: ts => sumExpr (termExpr t) ts

def text (s : Expansion) : String := s.expression.text

end Expansion

namespace Expr

/-- Expands an expression whose denominators are constants. -/
def expand : Expr → Except Error Expansion
  | .number q => .ok (Expansion.constant q)
  | .atom q => Expansion.ofQuantity q
  | .add l r => return (← l.expand) + (← r.expand)
  | .sub l r => return (← l.expand).sub (← r.expand)
  | .neg e => return (← e.expand).neg
  | .mul l r => return (← l.expand).mul (← r.expand)
  | .div n d => do
    let s ← d.expand
    if !s.isConstant then .error (.openDenominator d)
    else if s.constantValue = 0 then .error (.vanishingDenominator (Expr.div n d).text)
    else return (← n.expand).scale (1 / s.constantValue)
  | .elim _ p => .error (.pending p)

/-- The expanded numerator of an expression, which vanishes where the expression does. -/
def normalForm (e : Expr) : Except Error Expansion := e.numerator.rightAssociative.expand

end Expr
end Planimetry.Area
