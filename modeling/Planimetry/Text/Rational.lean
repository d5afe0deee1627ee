import Planimetry.Text.Integer
import Planimetry.Text.Quoted

/-! Rational numbers as text: a numerator, a fraction with a slash, or a decimal. -/

namespace Planimetry

/-- Why a text is no rational number: its denominator is zero, or it has another form. -/
inductive RationalError where
  | zeroDenominator (numerator : Int)
  | illegible (text : String)
  deriving DecidableEq, Repr

def fractionText (numerator denominator : Int) : String :=
  "Fraction(" ++ toString numerator ++ ", " ++ toString denominator ++ ")"

namespace RationalError

def message : RationalError → String
  | .zeroDenominator n => fractionText n 0
  | .illegible s => "Invalid literal for Fraction: " ++ Text.quoted s

/-- A division by zero. -/
def isDivision : RationalError → Bool
  | .zeroDenominator _ => true
  | .illegible _ => false

end RationalError

/-- The numerator, followed by a slash and the denominator unless that is one. -/
def rationalText (q : Rat) : String :=
  if q.den = 1 then toString q.num else toString q.num ++ "/" ++ toString q.den

/-- The rational number of digits with a scale. -/
def scaledDigits (digits : List Nat) (scale : Int) : Rat :=
  let n := Text.ofDigits digits
  let power := Nat.pow 10 scale.natAbs
  if 0 ≤ scale then mkRat n power else mkRat (n * power) 1

/-- Reads digits with a point among them or at one of their ends, or without a point; gives the digits and
the number of those after the point. -/
def pointedDigits? (cs : List Char) : Option (List Nat × Nat) :=
  match cs.span (· ≠ '.') with
  | (whole, []) => (Text.digits? whole).map fun ds => (ds, 0)
  | (whole, '.' :: []) => (Text.digits? whole).map fun ds => (ds, 0)
  | ([], _ :: rest) => (Text.digits? rest).map fun ds => (ds, ds.length)
  | (whole, _ :: rest) => do
    let before ← Text.digits? whole
    let after ← Text.digits? rest
    return (before ++ after, after.length)

/-- Reads pointed digits with an exponent, which may be missing. -/
def unsignedDecimal? (cs : List Char) : Option Rat :=
  match cs.span fun c => c ≠ 'e' && c ≠ 'E' with
  | (coefficient, []) => (pointedDigits? coefficient).map fun (ds, scale) => scaledDigits ds scale
  | (coefficient, _ :: rest) => do
    let (ds, scale) ← pointedDigits? coefficient
    let exponent ← Text.signedDigits? rest
    return scaledDigits ds (scale - exponent)

/-- Reads a numerator, with a slash and a denominator or without these, or a decimal, with a sign in front
or without one and with space around. -/
def readRational (s : String) : Except RationalError Rat :=
  let (negative, cs) := Text.splitSign (Text.trim Text.isSpace s.toList)
  match cs.span (· ≠ '/') with
  | (numerator, _ :: denominator) =>
    match Text.digits? numerator, Text.digits? denominator with
    | some n, some d =>
      let n := Text.withSign negative (Text.ofDigits n)
      match Text.ofDigits d with
      | 0 => .error (.zeroDenominator n)
      | d => .ok (mkRat n d)
    | _, _ => .error (.illegible s)
  | (_, []) => match unsignedDecimal? cs with
    | some q => .ok (if negative then -q else q)
    | none => .error (.illegible s)

end Planimetry
