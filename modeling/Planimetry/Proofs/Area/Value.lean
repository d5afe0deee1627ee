import Mathlib.Data.Rat.Lemmas
import Mathlib.Tactic.FieldSimp
import Mathlib.Tactic.Ring
import Planimetry.Area.Orientation

/-! Values of expressions for given values of the quantities. -/

namespace Planimetry.Area

variable {ν : Quantity → ℚ}

namespace Oriented

/-- The factor times the value of the quantity; an absent quantity stands for one. -/
def valueAt (ν : Quantity → ℚ) (o : Oriented) : ℚ := o.factor * (o.quantity.elim 1 ν)

end Oriented

/-- Quantities have the values of their orientations. -/
def RespectsOrientation (ν : Quantity → ℚ) : Prop :=
  ∀ q o, q.orient = .ok o → ν q = o.valueAt ν

namespace Expr

/-- The value of an expression; markers do not change it. -/
def valueAt (ν : Quantity → ℚ) : Expr → ℚ
  | .number q => q
  | .atom q => ν q
  | .add l r => l.valueAt ν + r.valueAt ν
  | .sub l r => l.valueAt ν - r.valueAt ν
  | .mul l r => l.valueAt ν * r.valueAt ν
  | .div n d => n.valueAt ν / d.valueAt ν
  | .neg e => -e.valueAt ν
  | .elim e _ => e.valueAt ν

/-- The expression has no markers, and no denominator in it has the value zero. -/
def IsDefined (ν : Quantity → ℚ) : Expr → Prop
  | .number _ | .atom _ => True
  | .add l r | .sub l r | .mul l r => l.IsDefined ν ∧ r.IsDefined ν
  | .div n d => n.IsDefined ν ∧ d.IsDefined ν ∧ d.valueAt ν ≠ 0
  | .neg e => e.IsDefined ν
  | .elim .. => False

/-- The expression is defined and has a value. -/
def Denotes (ν : Quantity → ℚ) (e : Expr) (x : ℚ) : Prop := e.IsDefined ν ∧ e.valueAt ν = x

theorem denotes_self {e : Expr} (h : e.IsDefined ν) : e.Denotes ν (e.valueAt ν) := ⟨h, rfl⟩

theorem denotes_number (q : ℚ) : (Expr.number q).Denotes ν q := ⟨trivial, rfl⟩

theorem denotes_atom (q : Quantity) : (Expr.atom q).Denotes ν (ν q) := ⟨trivial, rfl⟩

theorem denotes_zero : Expr.zero.Denotes ν 0 := denotes_number 0

theorem denotes_one : Expr.one.Denotes ν 1 := denotes_number 1

section Denotes

variable {a b e : Expr} {x y z : ℚ}

theorem Denotes.of_eq (ha : a.Denotes ν x) (h : x = y) : a.Denotes ν y := h ▸ ha

theorem Denotes.add (ha : a.Denotes ν x) (hb : b.Denotes ν y) : (a.add b).Denotes ν (x + y) :=
  ⟨⟨ha.1, hb.1⟩, by rw [valueAt, ha.2, hb.2]⟩

theorem Denotes.sub (ha : a.Denotes ν x) (hb : b.Denotes ν y) : (a.sub b).Denotes ν (x - y) :=
  ⟨⟨ha.1, hb.1⟩, by rw [valueAt, ha.2, hb.2]⟩

theorem Denotes.mul (ha : a.Denotes ν x) (hb : b.Denotes ν y) : (a.mul b).Denotes ν (x * y) :=
  ⟨⟨ha.1, hb.1⟩, by rw [valueAt, ha.2, hb.2]⟩

theorem Denotes.div (ha : a.Denotes ν x) (hb : b.Denotes ν y) (hy : y ≠ 0) :
    (a.div b).Denotes ν (x / y) :=
  ⟨⟨ha.1, hb.1, hb.2 ▸ hy⟩, by rw [valueAt, ha.2, hb.2]⟩

theorem Denotes.neg (ha : a.Denotes ν x) : (Expr.neg a).Denotes ν (-x) :=
  ⟨ha.1, by rw [valueAt, ha.2]⟩

theorem denotes_number_iff {q : ℚ} : (Expr.number q).Denotes ν x ↔ q = x :=
  ⟨fun h => h.2, fun h => ⟨trivial, h⟩⟩

theorem denotes_neg_iff : (Expr.neg a).Denotes ν x ↔ ∃ y, a.Denotes ν y ∧ x = -y :=
  ⟨fun h => ⟨_, denotes_self h.1, h.2.symm⟩, fun ⟨_, hy, hx⟩ => hy.neg.of_eq hx.symm⟩

theorem denotes_add_iff :
    (a.add b).Denotes ν x ↔ ∃ y z, a.Denotes ν y ∧ b.Denotes ν z ∧ x = y + z :=
  ⟨fun h => ⟨_, _, denotes_self h.1.1, denotes_self h.1.2, h.2.symm⟩,
    fun ⟨_, _, hy, hz, hx⟩ => (hy.add hz).of_eq hx.symm⟩

theorem denotes_sub_iff :
    (a.sub b).Denotes ν x ↔ ∃ y z, a.Denotes ν y ∧ b.Denotes ν z ∧ x = y - z :=
  ⟨fun h => ⟨_, _, denotes_self h.1.1, denotes_self h.1.2, h.2.symm⟩,
    fun ⟨_, _, hy, hz, hx⟩ => (hy.sub hz).of_eq hx.symm⟩

theorem denotes_mul_iff :
    (a.mul b).Denotes ν x ↔ ∃ y z, a.Denotes ν y ∧ b.Denotes ν z ∧ x = y * z :=
  ⟨fun h => ⟨_, _, denotes_self h.1.1, denotes_self h.1.2, h.2.symm⟩,
    fun ⟨_, _, hy, hz, hx⟩ => (hy.mul hz).of_eq hx.symm⟩

theorem denotes_div_iff :
    (a.div b).Denotes ν x ↔ ∃ y z, a.Denotes ν y ∧ b.Denotes ν z ∧ z ≠ 0 ∧ x = y / z :=
  ⟨fun h => ⟨_, _, denotes_self h.1.1, denotes_self h.1.2.1, h.1.2.2, h.2.symm⟩,
    fun ⟨_, _, hy, hz, hne, hx⟩ => (hy.div hz hne).of_eq hx.symm⟩

theorem not_denotes_elim {p : Label} : ¬(a.elim p).Denotes ν x := fun h => h.1

theorem Denotes.eq (ha : a.Denotes ν x) (hb : a.Denotes ν y) : x = y := ha.2.symm.trans hb.2

end Denotes

end Expr

end Planimetry.Area
