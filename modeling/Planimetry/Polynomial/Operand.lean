import Planimetry.Scalar
import Planimetry.Template

/-! Arithmetic on operands of which one may be a plain value. -/

namespace Planimetry

/-- Whether a polynomial stands for itself or for a template over roles. -/
inductive Form where
  | concrete
  | template
  deriving DecidableEq, Repr

/-- A polynomial with its form, or a plain value. -/
inductive Operand where
  | polynomial (form : Form) (value : Polynomial)
  | scalar (value : Scalar)

namespace Form

def name : Form → String
  | .concrete => "Polynomial"
  | .template => "SymbolicPolynomial"

end Form

/-- The power of a decimal. An exponent with more than five digits counts as infinite unless the decimal
is one or minus one. -/
def Decimal.powerOf (d : Decimal) (n : Int) : Except OperandError Decimal :=
  match d with
  | .finite s m _ =>
    if m = 0 then
      if n < 0 then .error .zeroPower
      else .ok (if n = 0 then .finite false 1 0 else .finite (s && n % 2 = 1) 0 0)
    else if 100000 < n.natAbs && d.binary * d.binary ≠ 1 then
      if (1 < d.binary * d.binary) = (0 < n) then .error .outOfRange
      else .ok (.finite (s && n % 2 = 1) 0 0)
    else
      let value := rationalPower d.binary n.natAbs
      match Decimal.ofRat (if n < 0 then 1 / value else value) with
      | .infinite _ => .error .outOfRange
      | d => .ok d
  | .infinite s =>
    .ok (if n = 0 then .finite false 1 0
      else if n < 0 then .finite (s && n % 2 = 1) 0 0 else .infinite (s && n % 2 = 1))
  | .undefined => .ok (if n = 0 then .finite false 1 0 else .undefined)

/-- The power of a number; a whole number with a negative exponent has a decimal one. -/
def Scalar.power : Scalar → Int → Except OperandError Scalar
  | .number .fraction q, n =>
    let value := rationalPower q n.natAbs
    if 0 ≤ n then .ok (.number .fraction value)
    else if q = 0 then .error (.zeroDivisor .fraction 1)
    else .ok (.number .fraction (1 / value))
  | .number t q, n =>
    if 0 ≤ n then .ok (.number .whole (rationalPower q n.natAbs))
    else return .decimal (← (← nearestDecimal t q).powerOf n)
  | .decimal d, n => return .decimal (← d.powerOf n)
  | a, _ => .error (.unsupported "** or pow()" a.typeName NumberType.whole.name)

namespace Operand

/-- Applies an operation; a number next to a polynomial counts as a constant, and the form of the
result is that of the left polynomial. -/
def combine (onPolynomials : Polynomial → Polynomial → Polynomial)
    (onScalars : Scalar → Scalar → Except OperandError Scalar) :
    Operand → Operand → Except OperandError Operand
  | .scalar a, .scalar b => return .scalar (← onScalars a b)
  | .scalar (.number _ a), .polynomial f q => .ok (.polynomial f (onPolynomials (.constant a) q))
  | .polynomial f p, .scalar (.number _ b) => .ok (.polynomial f (onPolynomials p (.constant b)))
  | .polynomial f p, .polynomial _ q => .ok (.polynomial f (onPolynomials p q))
  | .scalar a, _ => .error (.foreign "polynomial" a.typeName)
  | _, .scalar b => .error (.foreign "polynomial" b.typeName)

def add : Operand → Operand → Except OperandError Operand := combine (· + ·) Scalar.add

def sub : Operand → Operand → Except OperandError Operand := combine (· - ·) Scalar.sub

def mul : Operand → Operand → Except OperandError Operand := combine (· * ·) Scalar.mul

def neg : Operand → Except OperandError Operand
  | .polynomial f p => .ok (.polynomial f (-p))
  | .scalar a => return .scalar (← a.neg)

/-- Equality of values; a number equals a constant polynomial. -/
def equal : Operand → Operand → Bool
  | .polynomial _ p, .polynomial _ q => p == q
  | .polynomial _ p, .scalar (.number _ b) => p == .constant b
  | .scalar (.number _ a), .polynomial _ q => .constant a == q
  | .scalar a, .scalar b => a.equal b
  | _, _ => false

end Operand
end Planimetry
