import Planimetry.Area.Expansion

/-! The text that names every part of an expression or of an expanded form, with its value. -/

namespace Planimetry.Area

/-- A name with named parts between parentheses. -/
def partsText (name : String) (parts : List (String × String)) : String :=
  name ++ "(" ++ ", ".intercalate (parts.map fun p => p.1 ++ "=" ++ p.2) ++ ")"

/-- Items between parentheses; a single one is followed by a comma. -/
def itemsText : List String → String
  | [s] => "(" ++ s ++ ",)"
  | items => "(" ++ ", ".intercalate items ++ ")"

namespace Quantity

def kindName : Quantity → String
  | .area .. => "SignedArea"
  | .pythagoras .. => "PythagorasDifference"
  | .ratio .. => "SegmentRatio"

/-- The kind, and the labels under letters from the start of the alphabet. -/
def structureText (q : Quantity) : String :=
  partsText q.kindName (["a", "b", "c", "d"].zip (q.labels.map Text.quoted))

end Quantity

/-- The kind of a node, and the texts of its two parts. -/
def Operation.structureText (how : Operation) (l r : String) : String :=
  partsText how.kindName [(how.partNames.1, l), (how.partNames.2, r)]

namespace Expr

/-- The kind of a negation, and the text of what it negates. -/
def negStructure (s : String) : String := partsText "AdditiveInverse" [("expr", s)]

/-- The kind of a marker, the text of what it marks, and its point. -/
def markStructure (s : String) (point : Label) : String :=
  partsText "PointElimination" [("expr", s), ("point", Text.quoted point)]

/-- The name of the kind of node at the root. -/
def nodeName : Expr → String
  | .number _ => "BasicNumber"
  | .atom q => q.kindName
  | .add .. => Operation.add.kindName
  | .sub .. => Operation.sub.kindName
  | .mul .. => Operation.mul.kindName
  | .div .. => Operation.div.kindName
  | .neg _ => "AdditiveInverse"
  | .elim .. => "PointElimination"

def structureText : Expr → String
  | .number q => partsText "BasicNumber" [("value", fractionText q.num q.den)]
  | .atom q => q.structureText
  | .add l r => Operation.add.structureText l.structureText r.structureText
  | .sub l r => Operation.sub.structureText l.structureText r.structureText
  | .mul l r => Operation.mul.structureText l.structureText r.structureText
  | .div n d => Operation.div.structureText n.structureText d.structureText
  | .neg e => negStructure e.structureText
  | .elim e p => markStructure e.structureText p

end Expr

namespace Expansion

def kindName : String := "SumOfProducts"

def termText (t : Factors × Rat) : String :=
  partsText "ProductTerm" [("coefficient", fractionText t.2.num t.2.den),
    ("atoms", itemsText (t.1.map Quantity.structureText))]

def structureText (s : Expansion) : String :=
  partsText kindName [("terms", itemsText (s.entries.map termText))]

end Expansion
end Planimetry.Area
