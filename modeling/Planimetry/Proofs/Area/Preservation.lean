import Planimetry.Proofs.Area.Regular

/-! Simplification is safe: where no denominator of an expression is zero, no pass divides by zero, the value
stays, and no denominator becomes zero. Markers are looked through. -/

namespace Planimetry.Area

variable {ν : Quantity → ℚ}

instance : DecidablePred Quantity.IsRegular
  | .area .. | .pythagoras .. => .isTrue trivial
  | .ratio _ _ c d => inferInstanceAs (Decidable (c ≠ d))

namespace Expr

variable {e e' : Expr} {x : ℚ}

/-- No denominator has the value zero, and no ratio is to a segment from a point to itself; a marker stands for
the expression in it. -/
def IsMeaningful (ν : Quantity → ℚ) : Expr → Prop
  | .number _ => True
  | .atom q => q.IsRegular
  | .add l r | .sub l r | .mul l r => l.IsMeaningful ν ∧ r.IsMeaningful ν
  | .div n d => n.IsMeaningful ν ∧ d.IsMeaningful ν ∧ d.valueAt ν ≠ 0
  | .neg e | .elim e _ => e.IsMeaningful ν

instance decidableIsMeaningful (ν : Quantity → ℚ) : (e : Expr) → Decidable (e.IsMeaningful ν)
  | .number _ => .isTrue trivial
  | .atom q => inferInstanceAs (Decidable q.IsRegular)
  | .add l r | .sub l r | .mul l r =>
    have := decidableIsMeaningful ν l
    have := decidableIsMeaningful ν r
    inferInstanceAs (Decidable (l.IsMeaningful ν ∧ r.IsMeaningful ν))
  | .div n d =>
    have := decidableIsMeaningful ν n
    have := decidableIsMeaningful ν d
    inferInstanceAs (Decidable (n.IsMeaningful ν ∧ d.IsMeaningful ν ∧ d.valueAt ν ≠ 0))
  | .neg e | .elim e _ => decidableIsMeaningful ν e

/-- The expression is meaningful and has a value. -/
def Means (ν : Quantity → ℚ) (e : Expr) (x : ℚ) : Prop := e.IsMeaningful ν ∧ e.valueAt ν = x

theorem means_self (h : e.IsMeaningful ν) : e.Means ν (e.valueAt ν) := ⟨h, rfl⟩

/-- A node that joins two meaningful expressions is meaningful, and has the value of their values. -/
theorem means_node {node : Expr → Expr → Expr} {op : ℚ → ℚ → ℚ} {a b : Expr}
    (hnode : (node a b).IsMeaningful ν ↔ a.IsMeaningful ν ∧ b.IsMeaningful ν)
    (hop : (node a b).valueAt ν = op (a.valueAt ν) (b.valueAt ν)) :
    (node a b).Means ν x ↔ ∃ y z, a.Means ν y ∧ b.Means ν z ∧ x = op y z := by
  constructor
  · rintro ⟨h, rfl⟩
    obtain ⟨ha, hb⟩ := hnode.1 h
    exact ⟨_, _, means_self ha, means_self hb, hop⟩
  · rintro ⟨y, z, ⟨ha, rfl⟩, ⟨hb, rfl⟩, rfl⟩
    exact ⟨hnode.2 ⟨ha, hb⟩, hop⟩

theorem isReading_means (ν : Quantity → ℚ) : IsReading (Means ν) where
  number := ⟨fun h => h.2, fun h => ⟨trivial, h⟩⟩
  neg := by
    intro a x
    constructor
    · rintro ⟨ha, rfl⟩
      exact ⟨_, means_self ha, rfl⟩
    · rintro ⟨y, ⟨ha, rfl⟩, rfl⟩
      exact ⟨ha, rfl⟩
  add := means_node .rfl rfl
  sub := means_node .rfl rfl
  mul := means_node .rfl rfl
  div := by
    intro a b x
    constructor
    · rintro ⟨⟨ha, hb, hne⟩, rfl⟩
      exact ⟨_, _, means_self ha, means_self hb, hne, rfl⟩
    · rintro ⟨y, z, ⟨ha, rfl⟩, ⟨hb, rfl⟩, hne, rfl⟩
      exact ⟨⟨ha, hb, hne⟩, rfl⟩
  unique hx hy := hx.2.symm.trans hy.2

section

variable (hν : RespectsDegeneracy ν)

include hν

/-- A quantity that is not an empty ratio simplifies to its value or to itself. -/
theorem Means.exists_simplify_atom {q : Quantity} (hq : q.IsRegular) :
    ∃ e, q.simplify = .ok e ∧ e.Means ν (ν q) := by
  obtain ⟨e, he⟩ := hq.exists_simplify
  have hvalue := (Quantity.denotes_simplify hν he).2
  refine ⟨e, he, ?_, hvalue⟩
  rcases Quantity.simplify_eq_ok he with rfl | ⟨c, rfl⟩
  · exact hq
  · trivial

theorem Means.simplifyOnce (he : e.Means ν x) (h : e.simplifyOnce = .ok e') : e'.Means ν x := by
  have hstable : IsStable fun a b => ∀ x, a.Means ν x → b.Means ν x := by
    refine (isReading_means ν).isStable ?_ ?_
    · rintro q f x hf ⟨hq, rfl⟩
      obtain ⟨f', hf', hvalue⟩ := Means.exists_simplify_atom hν hq
      cases hf'.symm.trans hf
      exact hvalue
    · intro a b p x hab ha
      exact hab x ha
  exact hstable.of_simplifyOnce h x he

/-- Where the expression is meaningful, a pass has a result: no denominator becomes the number zero. -/
theorem IsMeaningful.exists_simplifyOnce (he : e.IsMeaningful ν) : ∃ e', e.simplifyOnce = .ok e' := by
  induction e with
  | number q => exact ⟨_, rfl⟩
  | atom q => exact he.exists_simplify
  | neg e ih | elim e p ih =>
      obtain ⟨f, hf⟩ := ih he
      rw [simplifyOnce, hf]
      exact ⟨_, rfl⟩
  | add l r ihl ihr | sub l r ihl ihr | mul l r ihl ihr =>
      obtain ⟨a, ha⟩ := ihl he.1
      obtain ⟨b, hb⟩ := ihr he.2
      rw [simplifyOnce, ha, hb]
      exact ⟨_, rfl⟩
  | div n d ihn ihd =>
      obtain ⟨hn, hd, hne⟩ := he
      obtain ⟨a, ha⟩ := ihn hn
      obtain ⟨b, hb⟩ := ihd hd
      rw [simplifyOnce, ha, hb]
      cases hdiv : a.simplifyDiv b with
      | ok f => exact ⟨f, hdiv⟩
      | error err =>
          exfalso
          obtain ⟨-, hzero⟩ := simplifyDiv_eq_error hdiv
          have hvalue := (means_self hd).simplifyOnce hν hb
          rw [isZero_iff.1 hzero] at hvalue
          exact hne hvalue.2.symm

theorem Means.exists_simplifyWithin (he : e.Means ν x) (n : ℕ) :
    ∃ e' settled, e.simplifyWithin n = .ok (e', settled) ∧ e'.Means ν x := by
  have hpass {a b : Expr} (ha : a.Means ν x) (h : a.simplifyOnce = .ok b) : b.Means ν x :=
    ha.simplifyOnce hν h
  cases h : e.simplifyWithin n with
  | ok r => exact ⟨r.1, r.2, rfl, of_simplifyWithin hpass he h⟩
  | error err =>
      exfalso
      obtain ⟨a, ha, herr⟩ := exists_of_simplifyWithin_eq_error hpass he h
      obtain ⟨b, hb⟩ := ha.1.exists_simplifyOnce hν
      cases hb.symm.trans herr

end

/-- With any limit on the passes, simplification has a result wherever degenerate quantities have their values and
no denominator is zero; it has the value of the expression, and no denominator in it is zero either. It fails only
at a division by zero, and only on expressions with no such values. -/
theorem preserves_simplify (e : Expr) (limit : ℤ) :
    (∀ ν, RespectsDegeneracy ν → e.IsMeaningful ν → ∃ e' settled,
      e.simplify limit = .ok (e', settled) ∧ e'.valueAt ν = e.valueAt ν ∧ e'.IsMeaningful ν) ∧
    ∀ err, e.simplify limit = .error err →
      err.isDivision = true ∧ ∀ ν, RespectsDegeneracy ν → ¬e.IsMeaningful ν := by
  constructor
  · intro ν hν he
    obtain ⟨e', settled, hsimplify, hmeaningful, hvalue⟩ :=
      (means_self he).exists_simplifyWithin hν limit.toNat
    exact ⟨e', settled, hsimplify, hvalue, hmeaningful⟩
  · intro err herr
    refine ⟨isDivision_of_simplifyWithin herr, ?_⟩
    intro ν hν he
    obtain ⟨e', settled, hsimplify, -⟩ := (means_self he).exists_simplifyWithin hν limit.toNat
    cases hsimplify.symm.trans herr

end Expr

/-- Values of quantities that follow no place of the points, but in degenerate cases. -/
def tiltedValue : Quantity → ℚ
  | .area a b c => if [a, b, c].Nodup then 1 else 0
  | .pythagoras a b c => if a = b ∨ b = c then 0 else 2
  | .ratio a b c d => if a = b then 0 else if a = c ∧ b = d then 1 else if a = d ∧ b = c then -1 else 3

theorem respectsDegeneracy_tiltedValue : RespectsDegeneracy tiltedValue where
  area h := if_neg h
  pythagoras h := if_pos h
  ratio_point _ := if_pos rfl
  ratio_self h := (if_neg h).trans (if_pos ⟨rfl, rfl⟩)
  ratio_reversed h := (if_neg h).trans ((if_neg fun hsame => h hsame.1).trans (if_pos ⟨rfl, rfl⟩))

/-- A fraction in a marker, by a ratio to the same segment reversed, whose numerator is a difference of fractions. -/
def tiltedExpr : Expr :=
  .elim (.div (.sub (.div (.atom (.area "A" "B" "C")) (.atom (.ratio "A" "B" "C" "D")))
    (.div (.atom (.pythagoras "A" "A" "B")) (.atom (.ratio "A" "B" "C" "D"))))
    (.atom (.ratio "A" "B" "B" "A"))) "D"

theorem preserves_tiltedExpr :
    RespectsDegeneracy tiltedValue ∧ tiltedExpr.IsMeaningful tiltedValue ∧
      (∃ e' settled, tiltedExpr.simplify 500 = .ok (e', settled) ∧
        e'.valueAt tiltedValue = tiltedExpr.valueAt tiltedValue ∧ e'.IsMeaningful tiltedValue) ∧
      Expr.simplify 500 (.div .one (.sub tiltedExpr tiltedExpr)) = .error (.zeroDenominator .one) ∧
      ¬(Expr.div .one (.sub tiltedExpr tiltedExpr)).IsMeaningful tiltedValue := by
  have hν := respectsDegeneracy_tiltedValue
  have he : tiltedExpr.IsMeaningful tiltedValue := by decide +kernel
  have herr : Expr.simplify 500 (.div .one (.sub tiltedExpr tiltedExpr)) = .error (.zeroDenominator .one) := by
    decide +kernel
  exact ⟨hν, he, (Expr.preserves_simplify tiltedExpr 500).1 tiltedValue hν he, herr,
    ((Expr.preserves_simplify _ 500).2 _ herr).2 tiltedValue hν⟩

end Planimetry.Area
