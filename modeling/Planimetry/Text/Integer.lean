/-! Integers as text: blanks around, a sign, and decimal digits of any script. -/

namespace Planimetry.Text

/-- The digits zero of all scripts; the nine other digits follow each of them in order. -/
def zeroDigits : List Nat :=
  [
    48, 1632, 1776, 1984, 2406, 2534, 2662, 2790, 2918, 3046, 3174, 3302, 3430, 3558, 3664, 3792,
    3872, 4160, 4240, 6112, 6160, 6470, 6608, 6784, 6800, 6992, 7088, 7232, 7248, 42528, 43216,
    43264, 43472, 43504, 43600, 44016, 65296, 66720, 68912, 69734, 69872, 69942, 70096, 70384,
    70736, 70864, 71248, 71360, 71472, 71904, 72016, 72784, 73040, 73120, 92768, 92864, 93008,
    120782, 120792, 120802, 120812, 120822, 123200, 123632, 125264, 130032]

def digit? (c : Char) : Option Nat :=
  (zeroDigits.find? fun z => z ≤ c.toNat && c.toNat ≤ z + 9).map fun z => c.toNat - z

/-- The ranges of code points of blanks, the four information separators left out. -/
def blankRanges : List (Nat × Nat) :=
  [(9, 13), (32, 32), (133, 133), (160, 160), (5760, 5760), (8192, 8202), (8232, 8233), (8239, 8239),
    (8287, 8287), (12288, 12288)]

def isBlank (c : Char) : Bool := blankRanges.any fun r => r.1 ≤ c.toNat && c.toNat ≤ r.2

/-- Blanks and the four information separators. -/
def isSpace (c : Char) : Bool := isBlank c || 28 ≤ c.toNat && c.toNat ≤ 31

/-- Leaves out characters at both ends. -/
def trim (p : Char → Bool) (cs : List Char) : List Char :=
  ((cs.dropWhile p).reverse.dropWhile p).reverse

/-- Whether there is a minus sign in front, and what follows the sign if there is one. -/
def splitSign : List Char → Bool × List Char
  | '-' :: cs => (true, cs)
  | '+' :: cs => (false, cs)
  | cs => (false, cs)

/-- Further digits, each with or without an underscore in front. -/
def moreDigits? : List Char → Option (List Nat)
  | [] => some []
  | '_' :: c :: cs => do return (← digit? c) :: (← moreDigits? cs)
  | c :: cs => do return (← digit? c) :: (← moreDigits? cs)

/-- One digit or more, with single underscores between them allowed. -/
def digits? : List Char → Option (List Nat)
  | [] => none
  | c :: cs => do return (← digit? c) :: (← moreDigits? cs)

/-- The number that digits spell. -/
def ofDigits (digits : List Nat) : Nat := digits.foldl (fun n d => 10 * n + d) 0

def withSign (negative : Bool) (n : Nat) : Int := if negative then -n else n

/-- Reads digits with a sign, of which the sign may be missing. -/
def signedDigits? (cs : List Char) : Option Int :=
  let (negative, cs) := splitSign cs
  (digits? cs).map fun ds => withSign negative (ofDigits ds)

/-- Reads an integer with blanks around it. -/
def readInteger (s : String) : Option Int := signedDigits? (trim isBlank s.toList)

end Planimetry.Text
