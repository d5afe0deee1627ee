import Planimetry.Area.Operand
import Planimetry.Figure.Step
import Planimetry.Listing
import Planimetry.Polynomial.Operand
import Planimetry.Text.Abbreviated

/-! Traces of calls: short texts of values, and the lines written when a call starts and ends. -/

namespace Planimetry

/-- A value as a trace sees it: large domain values only by their summary, which a tree with a leaf that
is no expression does not have. -/
inductive Traced where
  | absent
  | truth (value : Bool)
  | integer (value : Int)
  | decimal (value : Decimal)
  | text (value : String)
  | other (written : String)
  | summary (value : String)
  | unsized
  | list (items : List Traced)
  | tuple (items : List Traced)
  | dictionary (items : List (Traced × Traced))

namespace Traced

def ofPolynomial (f : Form) (p : Polynomial) : Traced :=
  .summary (f.name ++ "(terms=" ++ toString p.size ++ ", degree=" ++ toString p.totalDegree ++ ")")

def ofExpr (e : Area.Expr) : Traced :=
  .summary (e.nodeName ++ "(size=" ++ toString e.size ++ ")")

def ofExpansion (s : Area.Expansion) : Traced :=
  .summary (Area.Expansion.kindName ++ "(terms=" ++ toString s.size ++ ")")

def ofStep (s : Step) : Traced := .summary (s.kind.name ++ ":" ++ s.label)

def ofScalar : Scalar → Traced
  | .number .truth q => .truth (q ≠ 0)
  | .number .whole q => .integer q.num
  | .word s => .text s
  | .decimal d => .decimal d
  | a => .other a.written

def ofOperand : Operand → Traced
  | .polynomial f p => ofPolynomial f p
  | .scalar a => ofScalar a

def ofAreaOperand : Area.Operand → Traced
  | .expression e => ofExpr e
  | .expansion s => ofExpansion s
  | .scalar a => ofScalar a
  | _ => .unsized

/-- The number that a value equals; truth values count as one and zero. -/
def number? : Traced → Option Rat
  | .truth b => some (if b then 1 else 0)
  | .integer n => some n
  | .decimal d => d.binary?
  | _ => none

/-- Whether two values are the same key of a dictionary. -/
def same : Traced → Traced → Bool
  | .absent, .absent => true
  | .text s, .text t => s == t
  | v, w => match v.number?, w.number? with
    | some p, some q => p == q
    | none, none => match v, w with
      | .decimal d, .decimal e => d == e
      | _, _ => false
    | _, _ => false

/-- A dictionary of entries in order; a later one replaces the value of an earlier one. -/
def ofEntries (entries : List (Traced × Traced)) : Traced :=
  .dictionary (Listing.collect same entries)

/-- A text cut to a number of characters, with a mark if it was longer. -/
def truncate (maxLength : Int) (s : String) : String :=
  if s.length ≤ maxLength then s
  else String.ofList (Listing.front maxLength s.toList) ++ "... (truncated)"

/-- Items between brackets, as many as allowed. -/
def enclose (opening closing : String) (maxItems : Int) (items : List String) : String :=
  opening ++ ", ".intercalate (Listing.front maxItems items ++
    (if items.length ≤ maxItems then [] else ["..."])) ++ closing

/-- The text of a value that has no parts. -/
def scalar (maxLength : Int) : Traced → String
  | .absent => truncate maxLength "None"
  | .truth b => truncate maxLength (if b then "True" else "False")
  | .integer n => truncate maxLength (Text.abbreviated 40 (toString n))
  | .decimal d => truncate maxLength (Text.abbreviated 120 d.text)
  | .text s => truncate maxLength (Text.abbreviatedQuoted 120 s)
  | .other s => truncate maxLength (Text.abbreviated 120 s)
  | .summary s => s
  | _ => ""

mutual

/-- The text of a part: of collections five items, of anything else four hundred characters. -/
def part : Traced → String
  | .list xs => enclose "[" "]" 5 (parts xs)
  | .tuple xs => enclose "(" ")" 5 (parts xs)
  | .dictionary xs => enclose "\x7b" "\x7d" 5 (associations xs)
  | .absent => scalar 400 .absent
  | .truth b => scalar 400 (.truth b)
  | .integer n => scalar 400 (.integer n)
  | .decimal d => scalar 400 (.decimal d)
  | .text s => scalar 400 (.text s)
  | .other s => scalar 400 (.other s)
  | .summary s => s
  | .unsized => ""

def parts : List Traced → List String
  | [] => []
  | x :: xs => part x :: parts xs

def associations : List (Traced × Traced) → List String
  | [] => []
  | (k, v) :: xs => (part k ++ ": " ++ part v) :: associations xs

end

/-- The text of a value with limits of its own, which do not reach its parts. -/
def render (maxItems maxLength : Int) : Traced → String
  | .list xs => enclose "[" "]" maxItems (parts xs)
  | .tuple xs => enclose "(" ")" maxItems (parts xs)
  | .dictionary xs => enclose "\x7b" "\x7d" maxItems (associations xs)
  | v => scalar maxLength v

mutual

/-- Whether a part has a text: all of its parts that are shown have one. -/
def partHasText : Traced → Bool
  | .list xs | .tuple xs => (Listing.front 5 (partsHaveText xs)).all id
  | .dictionary xs => (Listing.front 5 (associationsHaveText xs)).all id
  | .unsized => false
  | _ => true

def partsHaveText : List Traced → List Bool
  | [] => []
  | x :: xs => partHasText x :: partsHaveText xs

def associationsHaveText : List (Traced × Traced) → List Bool
  | [] => []
  | (k, v) :: xs => (partHasText k && partHasText v) :: associationsHaveText xs

end

/-- Whether a value has a text with a limit of its own on the items shown. -/
def hasText (maxItems : Int) : Traced → Bool
  | .list xs | .tuple xs => (Listing.front maxItems (partsHaveText xs)).all id
  | .dictionary xs => (Listing.front maxItems (associationsHaveText xs)).all id
  | v => v.partHasText

end Traced

/-- A call with its arguments. -/
structure Call where
  name : String
  arguments : List Traced
  named : List (String × Traced)

namespace Call

/-- Whether all arguments have a text. -/
def hasText (c : Call) : Bool :=
  c.arguments.all Traced.partHasText && c.named.all fun a => a.2.partHasText

def opening (c : Call) : String :=
  "-> " ++ c.name ++ "(" ++ ", ".intercalate
    (c.arguments.map Traced.part ++ c.named.map fun a => a.1 ++ "=" ++ a.2.part) ++ ")"

/-- The line for a result, if results are told, with the time that the call took. -/
def closing (c : Call) (result : Option Traced) (milliseconds : String) : String :=
  "<- " ++ c.name ++ (result.elim "" fun r => " = " ++ r.part) ++ " (" ++ milliseconds ++ " ms)"

def failure (c : Call) (message : String) : String :=
  "<- " ++ c.name ++ " raised ValueError: " ++ message

/-- The lines of a call, which has a result, told or not, or fails with a message. -/
def lines (c : Call) (outcome : Except String (Option Traced)) (milliseconds : String) : List String :=
  [c.opening, match outcome with
    | .ok result => c.closing result milliseconds
    | .error message => c.failure message]

end Call
end Planimetry
