/-! Decimal fractions in positional or scientific notation, and the limits beyond them. -/

namespace Planimetry

/-- The number `mantissa / 10 ^ scale` with a sign, which zero has too; an infinity; or no number. -/
inductive Decimal where
  | finite (negative : Bool) (mantissa : Nat) (scale : Int)
  | infinite (negative : Bool)
  | undefined
  deriving DecidableEq, Repr

namespace Decimal

/-- The value of a finite decimal. -/
def value? : Decimal → Option Rat
  | .finite negative mantissa scale =>
    let power := Nat.pow 10 scale.natAbs
    let size := if 0 ≤ scale then mkRat mantissa power else mkRat (mantissa * power) 1
    some (if negative then -size else size)
  | _ => none

/-- Reads digits with a sign, a point and an exponent, of which each may be missing. -/
def ofDigits? (s : String) : Option Decimal := do
  let negative := s.startsWith "-"
  let size := if negative then (s.drop 1).toString else s
  let (coefficient, exponent) ← match size.toLower.splitOn "e" with
    | [c] => some (c, 0)
    | [c, e] => (e.replace "+" "").toInt?.map fun n => (c, n)
    | _ => none
  let (whole, fraction) ← match coefficient.splitOn "." with
    | [w] => some (w, "")
    | [w, f] => some (w, f)
    | _ => none
  let mantissa ← (whole ++ fraction).toNat?
  return .finite negative mantissa (fraction.length - exponent)

/-- Reads a decimal, or the word for one that is not finite. -/
def ofText? : String → Option Decimal
  | "Infinity" => some (.infinite false)
  | "-Infinity" => some (.infinite true)
  | "NaN" => some .undefined
  | s => ofDigits? s

/-- A count of zeros. -/
def zeros (n : Nat) : List Char := List.replicate n '0'

/-- Digits with the point after some of them; a point outside the digits is reached by zeros. -/
def positional (digits : List Char) (point : Int) : String :=
  if point ≤ 0 then "0." ++ String.ofList (zeros (-point).toNat ++ digits)
  else
    let n := point.toNat
    let after := digits.drop n
    String.ofList (digits.take n ++ zeros (n - digits.length)) ++ "." ++
      String.ofList (if after.isEmpty then zeros 1 else after)

/-- One digit before the point, and an exponent of at least two digits. -/
def scientific (digits : List Char) (exponent : Int) : String :=
  let rest := digits.drop 1
  let size := toString exponent.natAbs
  String.ofList (digits.take 1) ++ (if rest.isEmpty then "" else "." ++ String.ofList rest) ++
    (if exponent < 0 then "e-" else "e+") ++ (if size.length < 2 then "0" ++ size else size)

/-- Positional from `0.0001` to below `10 ^ 16`, with no more digits than needed but at least one
after the point; scientific elsewhere. -/
def sizeText (mantissa : Nat) (scale : Int) : String :=
  let all := (toString mantissa).toList
  let point := all.length - scale
  let digits := (all.reverse.dropWhile (· == '0')).reverse
  if mantissa = 0 then "0.0"
  else if -3 ≤ point && point ≤ 16 then positional digits point
  else scientific digits (point - 1)

def signText (negative : Bool) : String := if negative then "-" else ""

def text : Decimal → String
  | .finite negative mantissa scale => signText negative ++ sizeText mantissa scale
  | .infinite negative => signText negative ++ "inf"
  | .undefined => "nan"

end Decimal
end Planimetry
