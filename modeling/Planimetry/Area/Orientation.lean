import Planimetry.Area.Error

/-! Canonical orientation: one quantity for all those that differ by a sign only. -/

namespace Planimetry.Area

/-- A factor times a canonical quantity, or the factor alone. -/
structure Oriented where
  factor : Rat
  quantity : Option Quantity
  deriving DecidableEq

namespace Quantity

/-- The signed area with the least label first and the others in ascending order. -/
def orientArea (a b c : Label) : Oriented :=
  let ordered (a b c : Label) : Oriented :=
    if b < c then ⟨1, some (.area a b c)⟩ else ⟨-1, some (.area a c b)⟩
  if ¬ [a, b, c].Nodup then ⟨0, none⟩
  else if a < b && a < c then ordered a b c
  else if b < a && b < c then ordered b c a
  else ordered c a b

/-- The Pythagoras difference with its ends in ascending order. Of a segment from an end back to it,
the lesser label is the end. -/
def orientPythagoras (a b c : Label) : Oriented :=
  if a = b || b = c then ⟨0, none⟩
  else if a = c && b < a then ⟨1, some (.pythagoras b a b)⟩
  else if c < a then ⟨1, some (.pythagoras c b a)⟩
  else ⟨1, some (.pythagoras a b c)⟩

/-- The ratio of segments with the ends of each in ascending order. -/
def orientRatio (a b c d : Label) : Oriented :=
  let sign (s t : Label) : Rat := if t < s then -1 else 1
  let factor := sign a b * sign c d
  let first := if b < a then (b, a) else (a, b)
  let second := if d < c then (d, c) else (c, d)
  if first = second then ⟨factor, none⟩
  else ⟨factor, some (.ratio first.1 first.2 second.1 second.2)⟩

def orient : Quantity → Except Error Oriented
  | .area a b c => .ok (orientArea a b c)
  | .pythagoras a b c => .ok (orientPythagoras a b c)
  | .ratio a b c d =>
    if c = d then .error (.emptyRatio (.ratio a b c d))
    else if a = b then .ok ⟨0, none⟩
    else .ok (orientRatio a b c d)

end Quantity

namespace Oriented

def expression (o : Oriented) : Expr :=
  match o.quantity with
  | none => .number o.factor
  | some q => if o.factor = 1 then .atom q else .neg (.atom q)

end Oriented

namespace Expr

/-- Orients all quantities of an expression. -/
def orient : Expr → Except Error Expr
  | .number q => .ok (.number q)
  | .atom q => return (← q.orient).expression
  | .add l r => return .add (← l.orient) (← r.orient)
  | .sub l r => return .sub (← l.orient) (← r.orient)
  | .mul l r => return .mul (← l.orient) (← r.orient)
  | .div n d => return .div (← n.orient) (← d.orient)
  | .neg e => return .neg (← e.orient)
  | .elim e p => return .elim (← e.orient) p

end Expr
end Planimetry.Area
