import Planimetry.Area.Expr

/-! Right-associative form: no differences, no inverses, and no sum or product as the left operand of
its own kind. -/

namespace Planimetry.Area.Expr

/-- Adds a summand at the end of a right-associative sum. -/
def joinAdd : Expr → Expr → Expr
  | .add l r, e => .add l (joinAdd r e)
  | l, e => .add l e

/-- Adds a factor at the end of a right-associative product. -/
def joinMul : Expr → Expr → Expr
  | .mul l r, e => .mul l (joinMul r e)
  | l, e => .mul l e

/-- The right-associative form, in which `a - b` is the sum of `a` and `-1` times `b`. -/
def rightAssociative : Expr → Expr
  | .add l r => joinAdd l.rightAssociative r.rightAssociative
  | .sub l r => joinAdd l.rightAssociative (joinMul minusOne r.rightAssociative)
  | .mul l r => joinMul l.rightAssociative r.rightAssociative
  | .neg e => joinMul minusOne e.rightAssociative
  | .div n d => .div n.rightAssociative d.rightAssociative
  | .elim e p => .elim e.rightAssociative p
  | e => e

end Planimetry.Area.Expr
