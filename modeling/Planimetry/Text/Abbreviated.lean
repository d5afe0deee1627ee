import Planimetry.Text.Quoted

/-! Texts cut down to a limit, with their middle left out. -/

namespace Planimetry.Text

/-- The length of the front that is kept when a text is cut to a limit; three dots replace the middle. -/
def frontLength (limit : Nat) : Nat := (limit - 3) / 2

def backLength (limit : Nat) : Nat := limit - 3 - frontLength limit

/-- A text longer than the limit keeps its front and its back. -/
def abbreviated (limit : Nat) (s : String) : String :=
  if s.length ≤ limit then s
  else
    let cs := s.toList
    String.ofList (cs.take (frontLength limit)) ++ "..." ++
      String.ofList (cs.drop (cs.length - backLength limit))

/-- The last characters of a text. Of one that is shorter than asked for, the characters that are
missing are dropped from the front, as far as there are any. -/
def back (n : Nat) (cs : List Char) : List Char :=
  if n ≤ cs.length then cs.drop (cs.length - n) else cs.drop (2 * cs.length - n)

/-- Quoted text; if that is longer than the limit, the text is shortened before it is quoted. -/
def abbreviatedQuoted (limit : Nat) (s : String) : String :=
  let cs := s.toList
  if (quoted (String.ofList (cs.take limit))).length ≤ limit then
    quoted (String.ofList (cs.take limit))
  else
    let kept := cs.take (frontLength limit) ++ back (backLength limit) cs
    let q := (quoted (String.ofList kept)).toList
    String.ofList (q.take (frontLength limit)) ++ "..." ++
      String.ofList (back (backLength limit) q)

end Planimetry.Text
