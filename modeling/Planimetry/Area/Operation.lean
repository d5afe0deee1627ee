import Planimetry.Scalar

/-! The four operations that join two expressions. -/

namespace Planimetry.Area

inductive Operation where
  | add
  | sub
  | mul
  | div
  deriving DecidableEq, Repr

namespace Operation

def symbol : Operation → String
  | .add => "+"
  | .sub => "-"
  | .mul => "*"
  | .div => "/"

def ofSymbol? : String → Option Operation
  | "+" => some .add
  | "-" => some .sub
  | "*" => some .mul
  | "/" => some .div
  | _ => none

/-- The name of the kind of node that joins two expressions. -/
def kindName : Operation → String
  | .add => "Sum"
  | .sub => "Difference"
  | .mul => "Product"
  | .div => "Fraction"

/-- The names of the two parts of such a node. -/
def partNames : Operation → String × String
  | .div => ("numerator", "denominator")
  | _ => ("left", "right")

/-- Sums and differences stand in parentheses, and so do both parts of a fraction. -/
def text : Operation → String → String → String
  | .add, l, r => "(" ++ l ++ " + " ++ r ++ ")"
  | .sub, l, r => "(" ++ l ++ " - " ++ r ++ ")"
  | .mul, l, r => l ++ "*" ++ r
  | .div, n, d => "(" ++ n ++ ")/(" ++ d ++ ")"

def onScalars : Operation → Scalar → Scalar → Except OperandError Scalar
  | .add => Scalar.add
  | .sub => Scalar.sub
  | .mul => Scalar.mul
  | .div => Scalar.div

end Operation
end Planimetry.Area
