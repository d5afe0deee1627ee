import Planimetry.Polynomial.Basic
import Planimetry.Text.Rational

/-! The text of a polynomial: signed terms from the leading monomial down. -/

namespace Planimetry.Polynomial

/-- A term without its sign; a coefficient of one is left out. -/
def magnitudeText (m : Monomial) (c : Rat) : String :=
  if m.isOne then rationalText c
  else if c = 1 then m.text
  else rationalText c ++ "*" ++ m.text

def termText (t : Monomial × Rat) : String := magnitudeText t.1 (if t.2 < 0 then -t.2 else t.2)

/-- The sign stands before a space, except that the first term has only a minus, and no space. -/
def text (p : Polynomial) : String :=
  match p.entries with
  | [] => "0"
  | t :: ts =>
    (if t.2 < 0 then "-" else "") ++ termText t ++
      String.join (ts.map fun t => (if t.2 < 0 then " - " else " + ") ++ termText t)

end Planimetry.Polynomial
