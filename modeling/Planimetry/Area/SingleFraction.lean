import Planimetry.Area.Expr

/-! Expressions as one fraction of two parts that contain no fraction themselves. -/

namespace Planimetry.Area.Expr

/-- A product in which an absent factor stands for one. -/
def times (e : Expr) : Option Expr → Expr
  | none => e
  | some f => .mul e f

/-- A product of two factors, each of which may be absent. -/
def timesOption : Option Expr → Option Expr → Option Expr
  | none, f => f
  | some e, f => some (e.times f)

/-- Numerator and denominator; an absent denominator stands for one. -/
def split : Expr → Expr × Option Expr
  | .div n d =>
    let (nn, nd) := n.split
    let (dn, dd) := d.split
    (nn.times dd, timesOption nd (some dn))
  | .add l r =>
    let (n, c) := l.split
    let (m, d) := r.split
    if c = d then (.add n m, c) else (.add (n.times d) (m.times c), timesOption c d)
  | .sub l r =>
    let (n, c) := l.split
    let (m, d) := r.split
    if c = d then (.sub n m, c) else (.sub (n.times d) (m.times c), timesOption c d)
  | .mul l r =>
    let (n, c) := l.split
    let (m, d) := r.split
    (.mul n m, timesOption c d)
  | .neg e =>
    let (n, d) := e.split
    (.neg n, d)
  | e => (e, none)

/-- A single fraction, or its numerator if the denominator is one. -/
def singleFraction (e : Expr) : Expr :=
  match e.split with
  | (n, none) => n
  | (n, some d) => if d.isOne then n else .div n d

/-- The numerator of the single fraction. -/
def numerator (e : Expr) : Expr :=
  match e.singleFraction with
  | .div n _ => n
  | n => n

end Planimetry.Area.Expr
