import Planimetry.Text.Decimal

/-! Decimals that stand for numbers of 53 binary digits: rounding, shortest form and arithmetic. -/

namespace Planimetry.Decimal

def power (base : Nat) (e : Int) : Rat :=
  if 0 ≤ e then mkRat (Nat.pow base e.toNat) 1 else mkRat 1 (Nat.pow base e.natAbs)

/-- The nearest whole number; a half goes to the even neighbour. -/
def nearestWhole (q : Rat) : Int :=
  let n := q.floor
  let rest := q - n
  if rest < 1 / 2 || rest = 1 / 2 && n % 2 = 0 then n else n + 1

/-- The exponent of the greatest power of two up to a positive number. -/
def binaryExponent (q : Rat) : Int :=
  let e := (Nat.log2 q.num.natAbs : Int) - Nat.log2 q.den
  if q < power 2 e then e - 1 else e

/-- The exponent of the least power of ten above a positive number. -/
def decimalExponent (q : Rat) : Int :=
  let e := ((toString q.num).length : Int) - (toString q.den).length
  if q < power 10 e then e else e + 1

/-- The nearest size with 53 binary digits, none of them below the place `-1074`; a size from two to the
power 1024 on has none. -/
def nearest? (q : Rat) : Option Rat :=
  if q = 0 then some 0
  else
    let unit := power 2 (max (binaryExponent q - 52) (-1074))
    let size := (nearestWhole (q / unit) : Rat) * unit
    if size < power 2 1024 then some size else none

/-- The decimal of a number of digits that is nearest to a size among those read as that size. -/
def withDigits? (negative : Bool) (q : Rat) (digits : Nat) : Option Decimal :=
  let scale := digits - decimalExponent q
  let scaled := q * power 10 scale
  let n := nearestWhole scaled
  let other := if (n : Rat) ≤ scaled then n + 1 else n - 1
  let reads (m : Int) := nearest? ((m : Rat) / power 10 scale) == some q
  ([n, other].find? reads).map fun m => .finite negative m.toNat scale

/-- The shortest decimal that is read as the size nearest to a given one; 17 digits always do. -/
def ofSize (negative : Bool) (q : Rat) : Decimal :=
  match nearest? q with
  | none => .infinite negative
  | some size =>
    if size = 0 then .finite negative 0 0
    else ((List.range' 1 17).findSome? (withDigits? negative size)).getD (.finite negative 0 0)

def ofRat (q : Rat) : Decimal := if q < 0 then ofSize true (-q) else ofSize false q

/-- The number of 53 binary digits that a finite decimal stands for. -/
def binary? (d : Decimal) : Option Rat := do
  let q ← d.value?
  if q < 0 then return -(← nearest? (-q)) else nearest? q

/-- That number, or zero for what is not finite. -/
def binary (d : Decimal) : Rat := d.binary?.getD 0

def isZero : Decimal → Bool
  | .finite _ m _ => m == 0
  | _ => false

def negate : Decimal → Decimal
  | .finite s m e => .finite (!s) m e
  | .infinite s => .infinite (!s)
  | .undefined => .undefined

/-- The sum; it is the negative zero for two of these only. -/
def add : Decimal → Decimal → Decimal
  | .undefined, _ | _, .undefined => .undefined
  | .infinite s, .infinite t => if s = t then .infinite s else .undefined
  | .infinite s, .finite .. | .finite .., .infinite s => .infinite s
  | .finite s m d, .finite t n e =>
    let sum := binary (.finite s m d) + binary (.finite t n e)
    if sum = 0 then .finite (s && t) 0 0 else ofRat sum

def sub (d e : Decimal) : Decimal := d.add e.negate

def mul : Decimal → Decimal → Decimal
  | .undefined, _ | _, .undefined => .undefined
  | .infinite s, .infinite t => .infinite (s != t)
  | .infinite s, .finite t n _ | .finite t n _, .infinite s =>
    if n = 0 then .undefined else .infinite (s != t)
  | .finite s m d, .finite t n e =>
    ofSize (s != t) (binary (.finite false m d) * binary (.finite false n e))

/-- The quotient by a decimal other than zero. -/
def div : Decimal → Decimal → Decimal
  | .undefined, _ | _, .undefined | .infinite _, .infinite _ => .undefined
  | .infinite s, .finite t .. => .infinite (s != t)
  | .finite s .., .infinite t => .finite (s != t) 0 0
  | .finite s m d, .finite t n e =>
    ofSize (s != t) (binary (.finite false m d) / binary (.finite false n e))

/-- Equality of numbers; an undefined one equals none, and zero has one value with both signs. -/
def equal : Decimal → Decimal → Bool
  | .finite s m d, .finite t n e => binary (.finite s m d) == binary (.finite t n e)
  | .infinite s, .infinite t => s == t
  | _, _ => false

end Planimetry.Decimal
