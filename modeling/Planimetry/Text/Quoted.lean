import Planimetry.Text.Printable

/-! Text between quotes, with escapes for what cannot be printed. -/

namespace Planimetry.Text

/-- The number of hexadecimal digits with leading zeros. -/
def hexadecimal (width n : Nat) : String :=
  let digits := Nat.toDigits 16 n
  String.ofList (List.replicate (width - digits.length) '0' ++ digits)

/-- A backslash form for the quote, the backslash, line breaks, tabs and unprintable characters. -/
def escape (quote c : Char) : String :=
  if c = quote || c = '\\' then String.ofList ['\\', c]
  else if c = '\n' then "\\n"
  else if c = '\r' then "\\r"
  else if c = '\t' then "\\t"
  else if isPrintable c then String.singleton c
  else if c.toNat < 256 then "\\x" ++ hexadecimal 2 c.toNat
  else if c.toNat < 65536 then "\\u" ++ hexadecimal 4 c.toNat
  else "\\U" ++ hexadecimal 8 c.toNat

/-- Single quotes, unless the text has a single quote and no double one. -/
def quoted (s : String) : String :=
  let quote := if s.contains '\'' && !s.contains '"' then '"' else '\''
  String.singleton quote ++ String.join (s.toList.map (escape quote)) ++ String.singleton quote

end Planimetry.Text
