import Planimetry.Double
import Planimetry.Text.Quoted
import Planimetry.Text.Rational

/-! Plain values that stand beside polynomials and expressions: numbers of several types, texts, and
values that take part in no arithmetic. -/

namespace Planimetry

inductive NumberType where
  | truth
  | whole
  | fraction
  deriving DecidableEq, Inhabited, Repr

/-- An exact number, a decimal, a text, or a value of another type as it is written. -/
inductive Scalar where
  | number (type : NumberType) (value : Rat)
  | decimal (value : Decimal)
  | word (text : String)
  | other (type written : String)
  deriving DecidableEq, Inhabited, Repr

/-- Why a value does not combine with a polynomial or expression or with another value, or is unfit by
itself. A division of fractions by zero is told with the sign of what is divided. -/
inductive OperandError where
  | foreign (partner type : String)
  | unsupported (symbol left right : String)
  | notNegatable (type : String)
  | zeroDivisor (type : NumberType) (sign : Int)
  | zeroDecimal
  | zeroPower
  | tooLarge (type : NumberType)
  | outOfRange
  | notIndex
  | notExpanded (type : String)
  | notKey (type : String)
  deriving DecidableEq, Repr

namespace NumberType

def name : NumberType → String
  | .truth => "bool"
  | .whole => "int"
  | .fraction => "Fraction"

/-- The type of sums and products of numbers of two types. -/
def join : NumberType → NumberType → NumberType
  | .fraction, _ => .fraction
  | _, .fraction => .fraction
  | _, _ => .whole

end NumberType

namespace OperandError

/-- Texts and lists are sequences, for which a sum is a concatenation and a product a repetition. -/
def isSequence (type : String) : Bool := type == "str" || type == "list"

def unsupportedText (symbol left right : String) : String :=
  if symbol = "+" && isSequence left then
    "can only concatenate " ++ left ++ " (not \"" ++ right ++ "\") to " ++ left
  else if symbol = "*" && (isSequence left || isSequence right) then
    "can't multiply sequence by non-int of type '" ++
      (if isSequence left then right else left) ++ "'"
  else
    "unsupported operand type(s) for " ++ symbol ++ ": '" ++ left ++ "' and '" ++ right ++ "'"

def message : OperandError → String
  | .foreign partner t => "cannot combine " ++ partner ++ " with " ++ t
  | .unsupported s l r => unsupportedText s l r
  | .notNegatable t => "bad operand type for unary -: '" ++ t ++ "'"
  | .zeroDivisor .fraction sign => (RationalError.zeroDenominator sign).message
  | .zeroDivisor _ _ => "division by zero"
  | .zeroDecimal => "float division by zero"
  | .zeroPower => "0.0 cannot be raised to a negative power"
  | .tooLarge .fraction => "integer division result too large for a float"
  | .tooLarge _ => "int too large to convert to float"
  | .outOfRange => "(34, 'Numerical result out of range')"
  | .notIndex => "cannot fit 'int' into an index-sized integer"
  | .notExpanded t => t ++ " is not an expanded form"
  | .notKey t => "unhashable type: '" ++ t ++ "'"

/-- A division by zero. -/
def isDivision : OperandError → Bool
  | .zeroDivisor .. | .zeroDecimal | .zeroPower => true
  | _ => false

/-- A number beyond the largest decimal or the greatest position. -/
def isOverflow : OperandError → Bool
  | .tooLarge _ | .outOfRange | .notIndex => true
  | _ => false

end OperandError

namespace Scalar

def typeName : Scalar → String
  | .number t _ => t.name
  | .decimal _ => "float"
  | .word _ => "str"
  | .other t _ => t

/-- The value as text. -/
def text : Scalar → String
  | .number .truth q => if q = 0 then "False" else "True"
  | .number _ q => rationalText q
  | .decimal d => d.text
  | .word s => s
  | .other _ s => s

/-- The value as it is written, so that its type can be told. -/
def written : Scalar → String
  | .number .fraction q => fractionText q.num q.den
  | .word s => Text.quoted s
  | a => a.text

/-- The rational number that a value is or spells. -/
def toRational : Scalar → Except RationalError Rat
  | .number _ q => .ok q
  | .word s => readRational s
  | .decimal d => match d.binary? with
    | some q => .ok q
    | none => .error (.illegible d.text)
  | .other _ s => .error (.illegible s)

/-- The decimal nearest to a number. -/
def nearestDecimal (t : NumberType) (q : Rat) : Except OperandError Decimal :=
  match Decimal.ofRat q with
  | .infinite _ => .error (.tooLarge t)
  | d => .ok d

def isNumeric : Scalar → Bool
  | .number .. | .decimal _ => true
  | _ => false

/-- The decimal that stands for a number next to a decimal. -/
def toDecimal : Scalar → Except OperandError Decimal
  | .number t q => nearestDecimal t q
  | .decimal d => .ok d
  | _ => .ok .undefined

/-- Applies an operation to numbers, exactly unless one of them is a decimal. -/
def combine (symbol : String) (f : Rat → Rat → Rat) (g : Decimal → Decimal → Decimal) :
    Scalar → Scalar → Except OperandError Scalar
  | .number s p, .number t q => .ok (.number (s.join t) (f p q))
  | a, b =>
    if a.isNumeric && b.isNumeric then return .decimal (g (← a.toDecimal) (← b.toDecimal))
    else .error (.unsupported symbol a.typeName b.typeName)

/-- The sum of numbers; texts are concatenated. -/
def add : Scalar → Scalar → Except OperandError Scalar
  | .word s, .word t => .ok (.word (s ++ t))
  | a, b => combine "+" (· + ·) Decimal.add a b

def sub : Scalar → Scalar → Except OperandError Scalar := combine "-" (· - ·) Decimal.sub

/-- A text as often as a whole number of 64 bits says; a negative one counts as zero. -/
def repeatText (s : String) (n : Rat) : Except OperandError Scalar :=
  if n.num < -9223372036854775808 || 9223372036854775808 ≤ n.num then .error .notIndex
  else .ok (.word (if s = "" then s else String.join (List.replicate n.num.toNat s)))

/-- The product of numbers; a text next to a whole number is repeated. -/
def mul : Scalar → Scalar → Except OperandError Scalar
  | .word s, .number .whole n | .number .whole n, .word s => repeatText s n
  | .word s, .number .truth n | .number .truth n, .word s => repeatText s n
  | a, b => combine "*" (· * ·) Decimal.mul a b

/-- The quotient of numbers; that of whole numbers is a decimal. -/
def div : Scalar → Scalar → Except OperandError Scalar
  | .number s p, .number t q =>
    if q = 0 then .error (.zeroDivisor (s.join t) p.num.sign)
    else if s.join t = .fraction then .ok (.number .fraction (p / q))
    else return .decimal (← nearestDecimal .fraction (p / q))
  | a, b =>
    if a.isNumeric && b.isNumeric then do
      let d ← a.toDecimal
      let e ← b.toDecimal
      if e.isZero then .error .zeroDecimal else return .decimal (d.div e)
    else .error (.unsupported "/" a.typeName b.typeName)

def neg : Scalar → Except OperandError Scalar
  | .number t q => .ok (.number (t.join .whole) (-q))
  | .decimal d => .ok (.decimal d.negate)
  | a => .error (.notNegatable a.typeName)

/-- Equality of values; numbers of different types can be equal. -/
def equal : Scalar → Scalar → Bool
  | .number _ p, .number _ q => p == q
  | .number _ p, .decimal d | .decimal d, .number _ p => d.binary? == some p
  | .decimal d, .decimal e => d.equal e
  | a, b => a == b

/-- Collections are no keys of a dictionary. -/
def checkKey : Scalar → Except OperandError Unit
  | .other t _ => if t = "list" || t = "dict" then .error (.notKey t) else .ok ()
  | _ => .ok ()

end Scalar
end Planimetry
