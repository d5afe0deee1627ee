import Mathlib.Logic.Relation
import Planimetry.Area.Simplification
import Planimetry.Proofs.Area.Value
import Planimetry.Proofs.Except

/-! Simplification: what a pass may do to an expression, rule by rule, and what holds after all passes as every
rule keeps it. -/

namespace Planimetry.Area

variable {ν : Quantity → ℚ}

theorem lt_or_lt_of_ne {a b : Label} (h : a ≠ b) : a < b ∨ b < a := by
  by_cases hab : a < b
  · exact .inl hab
  · refine .inr (by_contra fun hba => h ?_)
    exact String.le_antisymm (String.not_lt.1 hba) (String.not_lt.1 hab)

/-- A quantity stays as it is or becomes a number. -/
theorem Quantity.simplify_eq_ok {q : Quantity} {e : Expr} (h : q.simplify = .ok e) : e = .atom q ∨ ∃ c, e = .number c := by
  cases q with
  | area a b c =>
      cases h
      split
      next => exact .inl rfl
      next => exact .inr ⟨0, rfl⟩
  | pythagoras a b c =>
      cases h
      split
      next => exact .inr ⟨0, rfl⟩
      next => exact .inl rfl
  | ratio a b c d =>
      unfold Quantity.simplify at h
      dsimp only at h
      split at h
      next => cases h
      next =>
        split at h
        next => exact .inr ⟨0, (Except.ok.inj h).symm⟩
        next =>
          split at h
          next => exact .inr ⟨1, (Except.ok.inj h).symm⟩
          next =>
            split at h
            next => exact .inr ⟨-1, (Except.ok.inj h).symm⟩
            next => exact .inl (Except.ok.inj h).symm

section Degenerate

variable {a b c d : Label}

theorem RespectsOrientation.area_eq_zero (hν : RespectsOrientation ν) (h : ¬[a, b, c].Nodup) :
    ν (.area a b c) = 0 := by
  have horient : Quantity.orient (.area a b c) = .ok ⟨0, none⟩ := congr_arg Except.ok (if_pos h)
  rw [hν _ _ horient]
  exact zero_mul _

theorem RespectsOrientation.pythagoras_eq_zero (hν : RespectsOrientation ν) (h : a = b ∨ b = c) :
    ν (.pythagoras a b c) = 0 := by
  have horient : Quantity.orient (.pythagoras a b c) = .ok ⟨0, none⟩ :=
    congr_arg Except.ok (if_pos (by simpa using h))
  rw [hν _ _ horient]
  exact zero_mul _

theorem RespectsOrientation.ratio_eq_zero (hν : RespectsOrientation ν) (hcd : c ≠ d) :
    ν (.ratio a a c d) = 0 := by
  have horient : Quantity.orient (.ratio a a c d) = .ok ⟨0, none⟩ :=
    (if_neg hcd).trans (if_pos rfl)
  rw [hν _ _ horient]
  exact zero_mul _

theorem RespectsOrientation.ratio_eq_one (hν : RespectsOrientation ν) (hab : a ≠ b) :
    ν (.ratio a b a b) = 1 := by
  have horient : Quantity.orient (.ratio a b a b) = .ok ⟨1, none⟩ := by
    refine ((if_neg hab).trans (if_neg hab)).trans (congr_arg Except.ok ?_)
    unfold Quantity.orientRatio
    rw [if_pos rfl]
    by_cases hba : b < a <;> simp [hba]
  rw [hν _ _ horient]
  exact mul_one 1

theorem RespectsOrientation.ratio_eq_neg_one (hν : RespectsOrientation ν) (hab : a ≠ b) :
    ν (.ratio a b b a) = -1 := by
  have horient : Quantity.orient (.ratio a b b a) = .ok ⟨-1, none⟩ := by
    refine ((if_neg hab.symm).trans (if_neg hab)).trans (congr_arg Except.ok ?_)
    unfold Quantity.orientRatio
    rcases lt_or_lt_of_ne hab with hlt | hlt <;> simp [hlt, String.lt_asymm hlt]
  rw [hν _ _ horient]
  exact mul_one (-1)

/-- Degenerate quantities have the values that any place of their points gives them. -/
structure RespectsDegeneracy (ν : Quantity → ℚ) : Prop where
  area {a b c : Label} (h : ¬[a, b, c].Nodup) : ν (.area a b c) = 0
  pythagoras {a b c : Label} (h : a = b ∨ b = c) : ν (.pythagoras a b c) = 0
  ratio_point {a c d : Label} (h : c ≠ d) : ν (.ratio a a c d) = 0
  ratio_self {a b : Label} (h : a ≠ b) : ν (.ratio a b a b) = 1
  ratio_reversed {a b : Label} (h : a ≠ b) : ν (.ratio a b b a) = -1

theorem RespectsOrientation.respectsDegeneracy (hν : RespectsOrientation ν) : RespectsDegeneracy ν where
  area h := hν.area_eq_zero h
  pythagoras h := hν.pythagoras_eq_zero h
  ratio_point h := hν.ratio_eq_zero h
  ratio_self h := hν.ratio_eq_one h
  ratio_reversed h := hν.ratio_eq_neg_one h

/-- A degenerate quantity is replaced by its value. -/
theorem Quantity.denotes_simplify (hν : RespectsDegeneracy ν) {q : Quantity} {e : Expr}
    (h : q.simplify = .ok e) : e.Denotes ν (ν q) := by
  unfold Quantity.simplify at h
  split at h
  next a b c =>
    cases h
    split
    next => exact Expr.denotes_atom _
    next hdegenerate => exact Expr.denotes_zero.of_eq (hν.area hdegenerate).symm
  next a b c =>
    cases h
    split
    next hdegenerate =>
      refine Expr.denotes_zero.of_eq (hν.pythagoras ?_).symm
      simpa using hdegenerate
    next => exact Expr.denotes_atom _
  next a b c d =>
    split at h
    next => cases h
    next hcd =>
      split at h
      next hab =>
        cases h
        subst hab
        exact Expr.denotes_zero.of_eq (hν.ratio_point hcd).symm
      next hab =>
        split at h
        next hsame =>
          cases h
          rw [Bool.and_eq_true, decide_eq_true_iff, decide_eq_true_iff] at hsame
          obtain ⟨rfl, rfl⟩ := hsame
          exact Expr.denotes_one.of_eq (hν.ratio_self hab).symm
        next =>
          split at h
          next hsame =>
            cases h
            rw [Bool.and_eq_true, decide_eq_true_iff, decide_eq_true_iff] at hsame
            obtain ⟨rfl, rfl⟩ := hsame
            exact (Expr.denotes_number (-1)).of_eq (hν.ratio_reversed hab).symm
          next =>
            cases h
            exact Expr.denotes_atom _

end Degenerate

namespace Expr

theorem isZero_iff {e : Expr} : e.isZero = true ↔ e = .zero := by
  cases e with
  | number q => exact beq_iff_eq.trans ⟨fun h => congr_arg _ h, fun h => Expr.number.inj h⟩
  | _ => exact ⟨nofun, nofun⟩

theorem isOne_iff {e : Expr} : e.isOne = true ↔ e = .one := by
  cases e with
  | number q => exact beq_iff_eq.trans ⟨fun h => congr_arg _ h, fun h => Expr.number.inj h⟩
  | _ => exact ⟨nofun, nofun⟩

/-! ### Rules -/

/-- The rules of simplification, each for the root of an expression. -/
inductive Rewrites : Expr → Expr → Prop
  | neg_neg (a : Expr) : Rewrites (.neg (.neg a)) a
  | neg_number (q : ℚ) : Rewrites (.neg (.number q)) (.number (-q))
  | zero_add (b : Expr) : Rewrites (.add .zero b) b
  | add_zero (a : Expr) : Rewrites (.add a .zero) a
  | add_number (p q : ℚ) : Rewrites (.add (.number p) (.number q)) (.number (p + q))
  | add_neg (a b : Expr) : Rewrites (.add a (.neg b)) (.sub a b)
  | neg_add (a b : Expr) : Rewrites (.add (.neg a) b) (.sub b a)
  | add_div (m n c : Expr) : Rewrites (.add (.div m c) (.div n c)) (.div (.add m n) c)
  | sub_zero (a : Expr) : Rewrites (.sub a .zero) a
  | zero_sub (b : Expr) : Rewrites (.sub .zero b) (.neg b)
  | sub_number (p q : ℚ) : Rewrites (.sub (.number p) (.number q)) (.number (p - q))
  | sub_self (a : Expr) : Rewrites (.sub a a) .zero
  | sub_neg (a b : Expr) : Rewrites (.sub a (.neg b)) (.add a b)
  | sub_div (m n c : Expr) : Rewrites (.sub (.div m c) (.div n c)) (.div (.sub m n) c)
  | zero_mul (b : Expr) : Rewrites (.mul .zero b) .zero
  | mul_zero (a : Expr) : Rewrites (.mul a .zero) .zero
  | one_mul (b : Expr) : Rewrites (.mul .one b) b
  | mul_one (a : Expr) : Rewrites (.mul a .one) a
  | mul_number (p q : ℚ) : Rewrites (.mul (.number p) (.number q)) (.number (p * q))
  | minusOne_mul (b : Expr) : Rewrites (.mul .minusOne b) (.neg b)
  | mul_minusOne (a : Expr) : Rewrites (.mul a .minusOne) (.neg a)
  | neg_mul_neg (a b : Expr) : Rewrites (.mul (.neg a) (.neg b)) (.mul a b)
  | div_mul_div (m c n d : Expr) : Rewrites (.mul (.div m c) (.div n d)) (.div (.mul m n) (.mul c d))
  | div_mul (m c b : Expr) : Rewrites (.mul (.div m c) b) (.div (.mul m b) c)
  | mul_div (a n d : Expr) : Rewrites (.mul a (.div n d)) (.div (.mul a n) d)
  | zero_div (d : Expr) : Rewrites (.div .zero d) .zero
  | div_one (n : Expr) : Rewrites (.div n .one) n
  | div_number (p q : ℚ) : Rewrites (.div (.number p) (.number q)) (.number (p / q))
  | div_self (n : Expr) : Rewrites (.div n n) .one
  | div_minusOne (n : Expr) : Rewrites (.div n .minusOne) (.neg n)
  | div_div_div (a b c d : Expr) : Rewrites (.div (.div a b) (.div c d)) (.div (.mul a d) (.mul b c))
  | div_div_left (a b d : Expr) : Rewrites (.div (.div a b) d) (.div a (.mul b d))
  | div_div_right (n c d : Expr) : Rewrites (.div n (.div c d)) (.div (.mul n d) c)

/-- The expression stays, or a rule is applied to it. -/
abbrev Becomes : Expr → Expr → Prop := Relation.ReflGen Rewrites

theorem becomes_simplifyNeg (a : Expr) : (Expr.neg a).Becomes a.simplifyNeg := by
  unfold simplifyNeg
  split
  next => exact .single (.neg_neg _)
  next => exact .single (.neg_number _)
  next => exact .refl

theorem becomes_simplifyAdd (a b : Expr) : (Expr.add a b).Becomes (a.simplifyAdd b) := by
  unfold simplifyAdd
  split
  next h =>
    rw [isZero_iff.1 h]
    exact .single (.zero_add b)
  next =>
    split
    next h =>
      rw [isZero_iff.1 h]
      exact .single (.add_zero a)
    next =>
      split
      next => exact .single (.add_number _ _)
      next => exact .single (.add_neg _ _)
      next => exact .single (.neg_add _ _)
      next =>
        split
        next h =>
          rw [h]
          exact .single (.add_div _ _ _)
        next => exact .refl
      next => exact .refl

theorem becomes_simplifySub (a b : Expr) : (Expr.sub a b).Becomes (a.simplifySub b) := by
  unfold simplifySub
  split
  next h =>
    rw [isZero_iff.1 h]
    exact .single (.sub_zero a)
  next =>
    split
    next h =>
      rw [isZero_iff.1 h]
      exact .single (.zero_sub b)
    next =>
      split
      next => exact .single (.sub_number _ _)
      next =>
        split
        next h =>
          rw [h]
          exact .single (.sub_self b)
        next =>
          split
          next => exact .single (.sub_neg _ _)
          next =>
            split
            next h =>
              rw [h]
              exact .single (.sub_div _ _ _)
            next => exact .refl
          next => exact .refl

theorem becomes_simplifyMul (a b : Expr) : (Expr.mul a b).Becomes (a.simplifyMul b) := by
  unfold simplifyMul
  split
  next h =>
    rcases Bool.or_eq_true_iff.1 h with h | h
    · rw [isZero_iff.1 h]
      exact .single (.zero_mul b)
    · rw [isZero_iff.1 h]
      exact .single (.mul_zero a)
  next =>
    split
    next h =>
      rw [isOne_iff.1 h]
      exact .single (.one_mul b)
    next =>
      split
      next h =>
        rw [isOne_iff.1 h]
        exact .single (.mul_one a)
      next =>
        split
        next => exact .single (.mul_number _ _)
        next =>
          split
          next h =>
            rw [h]
            exact .single (.minusOne_mul b)
          next =>
            split
            next h =>
              rw [h]
              exact .single (.mul_minusOne a)
            next =>
              split
              next => exact .single (.neg_mul_neg _ _)
              next => exact .single (.div_mul_div _ _ _ _)
              next => exact .single (.div_mul _ _ _)
              next => exact .single (.mul_div _ _ _)
              next => exact .refl

theorem becomes_of_simplifyDiv {a b e : Expr} (h : a.simplifyDiv b = .ok e) : (Expr.div a b).Becomes e := by
  unfold simplifyDiv at h
  split at h
  next => cases h
  next =>
    split at h
    next hzero =>
      cases h
      rw [isZero_iff.1 hzero]
      exact .single (.zero_div b)
    next =>
      split at h
      next hone =>
        cases h
        rw [isOne_iff.1 hone]
        exact .single (.div_one a)
      next =>
        split at h
        next =>
          cases h
          exact .single (.div_number _ _)
        next =>
          split at h
          next hab =>
            cases h
            rw [hab]
            exact .single (.div_self b)
          next =>
            split at h
            next hminus =>
              cases h
              rw [hminus]
              exact .single (.div_minusOne a)
            next =>
              split at h
              next =>
                cases h
                exact .single (.div_div_div _ _ _ _)
              next =>
                cases h
                exact .single (.div_div_left _ _ _)
              next =>
                cases h
                exact .single (.div_div_right _ _ _)
              next =>
                cases h
                exact .refl

/-! ### Passes -/

/-- A relation that holds between an expression and what a pass makes of it: between quantities and what they
are simplified to, between nodes if it holds between their operands, and with one more rule at the root. -/
structure IsStable (Q : Expr → Expr → Prop) : Prop where
  number (q : ℚ) : Q (.number q) (.number q)
  atom {q : Quantity} {e : Expr} (h : q.simplify = .ok e) : Q (.atom q) e
  neg {a a' : Expr} (ha : Q a a') : Q (.neg a) (.neg a')
  add {a a' b b' : Expr} (ha : Q a a') (hb : Q b b') : Q (.add a b) (.add a' b')
  sub {a a' b b' : Expr} (ha : Q a a') (hb : Q b b') : Q (.sub a b) (.sub a' b')
  mul {a a' b b' : Expr} (ha : Q a a') (hb : Q b b') : Q (.mul a b) (.mul a' b')
  div {a a' b b' : Expr} (ha : Q a a') (hb : Q b b') : Q (.div a b) (.div a' b')
  elim {a a' : Expr} (p : Label) (ha : Q a a') : Q (.elim a p) (.elim a' p)
  rewrites {a b c : Expr} (h : Q a b) (hbc : b.Rewrites c) : Q a c

variable {e e' : Expr} {x : ℚ}

theorem IsStable.becomes {Q : Expr → Expr → Prop} (hQ : IsStable Q) {a b c : Expr} (h : Q a b)
    (hbc : b.Becomes c) : Q a c := by
  cases hbc with
  | refl => exact h
  | single hbc => exact hQ.rewrites h hbc

theorem IsStable.of_simplifyOnce {Q : Expr → Expr → Prop} (hQ : IsStable Q)
    (h : e.simplifyOnce = .ok e') : Q e e' := by
  induction e generalizing e' with
  | number q =>
      cases h
      exact hQ.number q
  | atom q => exact hQ.atom h
  | neg e ih =>
      obtain ⟨f, hf, h⟩ := bind_eq_ok h
      cases h
      exact hQ.becomes (hQ.neg (ih hf)) (becomes_simplifyNeg f)
  | add l r ihl ihr =>
      obtain ⟨a, ha, h⟩ := bind_eq_ok h
      obtain ⟨b, hb, h⟩ := bind_eq_ok h
      cases h
      exact hQ.becomes (hQ.add (ihl ha) (ihr hb)) (becomes_simplifyAdd a b)
  | sub l r ihl ihr =>
      obtain ⟨a, ha, h⟩ := bind_eq_ok h
      obtain ⟨b, hb, h⟩ := bind_eq_ok h
      cases h
      exact hQ.becomes (hQ.sub (ihl ha) (ihr hb)) (becomes_simplifySub a b)
  | mul l r ihl ihr =>
      obtain ⟨a, ha, h⟩ := bind_eq_ok h
      obtain ⟨b, hb, h⟩ := bind_eq_ok h
      cases h
      exact hQ.becomes (hQ.mul (ihl ha) (ihr hb)) (becomes_simplifyMul a b)
  | div n d ihn ihd =>
      obtain ⟨a, ha, h⟩ := bind_eq_ok h
      obtain ⟨b, hb, h⟩ := bind_eq_ok h
      exact hQ.becomes (hQ.div (ihn ha) (ihd hb)) (becomes_of_simplifyDiv h)
  | elim e p ih =>
      obtain ⟨f, hf, h⟩ := bind_eq_ok h
      cases h
      exact hQ.elim p (ih hf)

section Within

variable {p : Expr → Prop} (hpass : ∀ {a b : Expr}, p a → a.simplifyOnce = .ok b → p b) {n : ℕ}

include hpass

/-- What every pass keeps holds of what they give in the end. -/
theorem of_simplifyWithin {settled : Bool} (he : p e) (h : e.simplifyWithin n = .ok (e', settled)) : p e' := by
  induction n generalizing e with
  | zero =>
      cases h
      exact he
  | succ n ih =>
      obtain ⟨next, hnext, h⟩ := bind_eq_ok h
      split at h
      next =>
        cases h
        exact he
      next => exact ih (hpass he hnext) h

/-- What every pass keeps holds of the expression on which one fails. -/
theorem exists_of_simplifyWithin_eq_error {err : Error} (he : p e) (h : e.simplifyWithin n = .error err) :
    ∃ a, p a ∧ a.simplifyOnce = .error err := by
  induction n generalizing e with
  | zero => cases h
  | succ n ih =>
      rcases bind_eq_error h with h | ⟨next, hnext, h⟩
      · exact ⟨e, he, h⟩
      · split at h
        next => cases h
        next => exact ih (hpass he hnext) h

end Within

end Expr

end Planimetry.Area
