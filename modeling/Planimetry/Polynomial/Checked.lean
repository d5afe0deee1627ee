import Planimetry.Listing
import Planimetry.Polynomial.Division
import Planimetry.Text.Integer
import Planimetry.Text.Quoted

/-! Variables, monomials, powers and pseudo-remainders from data that may be unfit for them. -/

namespace Planimetry

inductive PolynomialError where
  | noVariable
  | variableKind (given : String)
  | variableIndex (given : String)
  | axis (given : String)
  | negativeExponent (v : Variable) (exponent : Int)
  | negativePower
  | withoutVariable (v : Variable)
  deriving DecidableEq, Repr

namespace PolynomialError

def message : PolynomialError → String
  | .noVariable => "string index out of range"
  | .variableKind k => "variable kind must be 'u' or 'x', got " ++ Text.quoted k
  | .variableIndex i => "invalid literal for int() with base 10: " ++ Text.quoted i
  | .axis a => "coordinate must be 'x' or 'y', got " ++ Text.quoted a
  | .negativeExponent v e => "negative exponent for " ++ v.text ++ ": " ++ toString e
  | .negativePower => "negative powers are not polynomials"
  | .withoutVariable v => "divisor does not contain " ++ v.text

/-- A position outside of a text. -/
def isPosition : PolynomialError → Bool
  | .noVariable => true
  | _ => false

end PolynomialError

/-- The variable of a kind, `u` for free and `x` for dependent ones. -/
def Variable.ofKind (kind : String) (index : Int) : Except PolynomialError Variable :=
  match kind with
  | "u" => .ok (.free index)
  | "x" => .ok (.dependent index)
  | _ => .error (.variableKind kind)

/-- The placeholder for a coordinate of a role. -/
def Variable.ofAxis (role axis : String) : Except PolynomialError Variable :=
  match axis with
  | "x" => .ok (.placeholder role .x)
  | "y" => .ok (.placeholder role .y)
  | _ => .error (.axis axis)

/-- Reads a variable as it is written: an axis and a role, or a kind and an index. -/
def Variable.ofText (s : String) : Except PolynomialError Variable :=
  match s.splitOn "@" with
  | axis :: role :: rest => Variable.ofAxis ("@".intercalate (role :: rest)) axis
  | _ => match s.toList with
    | [] => .error .noVariable
    | kind :: index => match Text.readInteger (String.ofList index) with
      | some i => Variable.ofKind (String.singleton kind) i
      | none => .error (.variableIndex (String.ofList index))

/-- The product of powers, none of which may be negative; a later power of a variable replaces an earlier
one. -/
def Monomial.ofPowers (given : List (Variable × Int)) : Except PolynomialError Monomial :=
  let powers := Listing.collect (· == ·) given
  match powers.find? fun t => t.2 < 0 with
  | some t => .error (.negativeExponent t.1 t.2)
  | none => .ok (Sparse.ofList (powers.map fun t => (t.1, t.2.toNat)))

def Polynomial.ofTerm (c : Rat) (m : Monomial) : Polynomial := Sparse.single m c

def Polynomial.integerPower (p : Polynomial) (n : Int) : Except PolynomialError Polynomial :=
  if n < 0 then .error .negativePower else .ok (p ^ n.toNat)

/-- The pseudo-remainder by a divisor that contains the variable. -/
def Polynomial.remainder (f g : Polynomial) (v : Variable) : Except PolynomialError Polynomial :=
  if g.degree v = 0 then .error (.withoutVariable v) else .ok (f.pseudoRemainder g v)

end Planimetry
