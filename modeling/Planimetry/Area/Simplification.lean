import Planimetry.Area.Error

/-! Simplification of expressions by local rules, bottom up and until nothing changes. -/

namespace Planimetry.Area

namespace Quantity

/-- The value of a degenerate quantity; any other quantity stays. -/
def simplify : Quantity → Except Error Expr
  | .area a b c => .ok (if [a, b, c].Nodup then .atom (.area a b c) else .zero)
  | .pythagoras a b c => .ok (if a = b || b = c then .zero else .atom (.pythagoras a b c))
  | .ratio a b c d =>
    if c = d then .error (.emptyRatio (.ratio a b c d))
    else if a = b then .ok .zero
    else if a = c && b = d then .ok .one
    else if a = d && b = c then .ok .minusOne
    else .ok (.atom (.ratio a b c d))

end Quantity

namespace Expr

def simplifyNeg : Expr → Expr
  | .neg e => e
  | .number q => .number (-q)
  | e => .neg e

def simplifyAdd (a b : Expr) : Expr :=
  if a.isZero then b
  else if b.isZero then a
  else match a, b with
    | .number p, .number q => .number (p + q)
    | a, .neg b => .sub a b
    | .neg a, b => .sub b a
    | .div m c, .div n d =>
      if c = d then .div (.add m n) c else .add (.div m c) (.div n d)
    | a, b => .add a b

def simplifySub (a b : Expr) : Expr :=
  if b.isZero then a
  else if a.isZero then .neg b
  else match a, b with
    | .number p, .number q => .number (p - q)
    | a, b =>
      if a = b then .zero
      else match a, b with
        | a, .neg b => .add a b
        | .div m c, .div n d =>
          if c = d then .div (.sub m n) c else .sub (.div m c) (.div n d)
        | a, b => .sub a b

def simplifyMul (a b : Expr) : Expr :=
  if a.isZero || b.isZero then .zero
  else if a.isOne then b
  else if b.isOne then a
  else match a, b with
    | .number p, .number q => .number (p * q)
    | a, b =>
      if a = .minusOne then .neg b
      else if b = .minusOne then .neg a
      else match a, b with
        | .neg a, .neg b => .mul a b
        | .div m c, .div n d => .div (.mul m n) (.mul c d)
        | .div m c, b => .div (.mul m b) c
        | a, .div n d => .div (.mul a n) d
        | a, b => .mul a b

def simplifyDiv (n d : Expr) : Except Error Expr :=
  if d.isZero then .error (.zeroDenominator n)
  else if n.isZero then .ok .zero
  else if d.isOne then .ok n
  else match n, d with
    | .number p, .number q => .ok (.number (p / q))
    | n, d =>
      if n = d then .ok .one
      else if d = .minusOne then .ok (.neg n)
      else match n, d with
        | .div a b, .div c d => .ok (.div (.mul a d) (.mul b c))
        | .div a b, d => .ok (.div a (.mul b d))
        | n, .div c d => .ok (.div (.mul n d) c)
        | n, d => .ok (.div n d)

/-- One pass: the operands first, then the rule of the node. -/
def simplifyOnce : Expr → Except Error Expr
  | .number q => .ok (.number q)
  | .atom q => q.simplify
  | .neg e => return simplifyNeg (← e.simplifyOnce)
  | .add l r => return simplifyAdd (← l.simplifyOnce) (← r.simplifyOnce)
  | .sub l r => return simplifySub (← l.simplifyOnce) (← r.simplifyOnce)
  | .mul l r => return simplifyMul (← l.simplifyOnce) (← r.simplifyOnce)
  | .div n d => do simplifyDiv (← n.simplifyOnce) (← d.simplifyOnce)
  | .elim e p => return .elim (← e.simplifyOnce) p

/-- Passes until one changes nothing, but no more than a number of them; tells whether it settled. -/
def simplifyWithin : Nat → Expr → Except Error (Expr × Bool)
  | 0, e => .ok (e, false)
  | n + 1, e => do
    let next ← e.simplifyOnce
    if next = e then return (e, true) else simplifyWithin n next

/-- Simplification with a limit on the passes; a negative limit allows none. -/
def simplify (limit : Int) (e : Expr) : Except Error (Expr × Bool) := simplifyWithin limit.toNat e

end Expr

/-- The rule of a node over two expressions. -/
def Operation.simplify : Operation → Expr → Expr → Except Error Expr
  | .add, a, b => .ok (a.simplifyAdd b)
  | .sub, a, b => .ok (a.simplifySub b)
  | .mul, a, b => .ok (a.simplifyMul b)
  | .div, n, d => n.simplifyDiv d

end Planimetry.Area
