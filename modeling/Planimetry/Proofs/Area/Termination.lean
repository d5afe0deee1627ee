import Mathlib.Tactic.Ring
import Planimetry.Proofs.Area.Simplification

/-! Simplification settles: no rule makes an expression larger, and each lowers one weight, which puts fractions
inside of products above fractions of products. -/

namespace Planimetry.Area

namespace Expr

/-- What every rule lowers. -/
def weight : Expr → ℕ
  | .number _ => 2
  | .atom _ => 3
  | .add l r | .sub l r => l.weight + r.weight
  | .mul l r => l.weight * r.weight
  | .div n d => (n.weight + 1) * d.weight
  | .neg e | .elim e _ => e.weight + 1

variable {a a' b b' e e' r : Expr}

theorem two_le_weight (e : Expr) : 2 ≤ e.weight := by
  induction e with
  | number q => exact le_rfl
  | atom q => exact Nat.le_succ 2
  | add l r ihl ihr | sub l r ihl ihr => exact Nat.le_add_right_of_le ihl
  | mul l r ihl ihr => exact ihl.trans (Nat.le_mul_of_pos_right _ (Nat.zero_lt_of_lt ihr))
  | div n d ihn ihd =>
      exact (Nat.le_succ_of_le ihn).trans (Nat.le_mul_of_pos_right _ (Nat.zero_lt_of_lt ihd))
  | neg e ih | elim e p ih => exact Nat.le_succ_of_le ih

theorem weight_pos (e : Expr) : 0 < e.weight := Nat.zero_lt_of_lt e.two_le_weight

/-! ### One rule -/

theorem Rewrites.size_le (h : a.Rewrites b) : b.size ≤ a.size := by
  cases h <;> simp only [size, zero, one, minusOne] <;> omega

/-! Weights are at least two, which makes up for the one that a fraction adds to its numerator. -/

section Fractions

variable (a b c d m n : Expr)

theorem weight_div_add_lt : (div (add m n) c).weight < (add (div m c) (div n c)).weight := by
  calc (m.weight + n.weight + 1) * c.weight
      < (m.weight + n.weight + 1) * c.weight + c.weight := Nat.lt_add_of_pos_right c.weight_pos
    _ = (m.weight + 1) * c.weight + (n.weight + 1) * c.weight := by ring

theorem weight_div_mul_div_lt : (div (mul m n) (mul c d)).weight < (mul (div m c) (div n d)).weight := by
  have hextra : 0 < (m.weight + n.weight) * (c.weight * d.weight) :=
    Nat.mul_pos (Nat.add_pos_left m.weight_pos _) (Nat.mul_pos c.weight_pos d.weight_pos)
  calc (m.weight * n.weight + 1) * (c.weight * d.weight)
      < (m.weight * n.weight + 1) * (c.weight * d.weight)
        + (m.weight + n.weight) * (c.weight * d.weight) := Nat.lt_add_of_pos_right hextra
    _ = (m.weight + 1) * c.weight * ((n.weight + 1) * d.weight) := by ring

theorem weight_div_mul_lt : (div (mul m b) c).weight < (mul (div m c) b).weight := by
  calc (m.weight * b.weight + 1) * c.weight
      < (m.weight * b.weight + b.weight) * c.weight :=
        Nat.mul_lt_mul_of_pos_right (Nat.add_lt_add_left b.two_le_weight _) c.weight_pos
    _ = (m.weight + 1) * c.weight * b.weight := by ring

theorem weight_mul_div_lt : (div (mul a n) d).weight < (mul a (div n d)).weight := by
  calc (a.weight * n.weight + 1) * d.weight
      < (a.weight * n.weight + a.weight) * d.weight :=
        Nat.mul_lt_mul_of_pos_right (Nat.add_lt_add_left a.two_le_weight _) d.weight_pos
    _ = a.weight * ((n.weight + 1) * d.weight) := by ring

theorem weight_div_div_div_lt : (div (mul a d) (mul b c)).weight < (div (div a b) (div c d)).weight := by
  have hinner : b.weight * c.weight ≤ b.weight * c.weight * d.weight := Nat.le_mul_of_pos_right _ d.weight_pos
  have hextra : 0 < (a.weight * b.weight + b.weight + c.weight + 1) * d.weight :=
    Nat.mul_pos (Nat.succ_pos _) d.weight_pos
  calc (a.weight * d.weight + 1) * (b.weight * c.weight)
      = a.weight * d.weight * (b.weight * c.weight) + b.weight * c.weight := by ring
    _ < a.weight * d.weight * (b.weight * c.weight) + b.weight * c.weight * d.weight
        + (a.weight * b.weight + b.weight + c.weight + 1) * d.weight := by omega
    _ = ((a.weight + 1) * b.weight + 1) * ((c.weight + 1) * d.weight) := by ring

theorem weight_div_div_left_lt : (div a (mul b d)).weight < (div (div a b) d).weight := by
  calc (a.weight + 1) * (b.weight * d.weight)
      < (a.weight + 1) * (b.weight * d.weight) + d.weight := Nat.lt_add_of_pos_right d.weight_pos
    _ = ((a.weight + 1) * b.weight + 1) * d.weight := by ring

theorem weight_div_div_right_lt : (div (mul n d) c).weight < (div n (div c d)).weight := by
  have hinner : c.weight ≤ c.weight * d.weight := Nat.le_mul_of_pos_right _ d.weight_pos
  have hextra : 0 < (n.weight + 1) * d.weight := Nat.mul_pos (Nat.succ_pos _) d.weight_pos
  calc (n.weight * d.weight + 1) * c.weight
      = n.weight * d.weight * c.weight + c.weight := by ring
    _ < n.weight * d.weight * c.weight + c.weight * d.weight + (n.weight + 1) * d.weight := by omega
    _ = (n.weight + 1) * ((c.weight + 1) * d.weight) := by ring

end Fractions

theorem Rewrites.weight_lt (h : a.Rewrites b) : b.weight < a.weight := by
  have htwo := two_le_weight
  cases h with
  | neg_neg a => exact Nat.lt_add_of_pos_right two_pos
  | neg_number q => exact Nat.lt_succ_self 2
  | zero_add b | add_zero b | sub_zero b | zero_sub b =>
      simp only [weight, zero]
      omega
  | add_number p q | sub_number p q | mul_number p q | div_number p q =>
      simp only [weight]
      omega
  | add_neg a b | neg_add a b | sub_neg a b =>
      simp only [weight]
      omega
  | sub_self a =>
      have ha := htwo a
      simp only [weight, zero]
      omega
  | zero_mul b | mul_zero b | one_mul b | mul_one b | minusOne_mul b | mul_minusOne b
  | zero_div b | div_one b | div_minusOne b =>
      have hb := htwo b
      simp only [weight, zero, one, minusOne]
      omega
  | div_self n =>
      have hn := htwo n
      exact (Nat.lt_of_succ_lt_succ (by decide)).trans_le (Nat.mul_le_mul (Nat.succ_le_succ hn) hn)
  | add_div m n c | sub_div m n c => exact weight_div_add_lt c m n
  | neg_mul_neg a b => exact Nat.mul_lt_mul'' (Nat.lt_succ_self _) (Nat.lt_succ_self _)
  | div_mul_div m c n d => exact weight_div_mul_div_lt c d m n
  | div_mul m c b => exact weight_div_mul_lt b c m
  | mul_div a n d => exact weight_mul_div_lt a d n
  | div_div_div a b c d => exact weight_div_div_div_lt a b c d
  | div_div_left a b d => exact weight_div_div_left_lt a b d
  | div_div_right n c d => exact weight_div_div_right_lt c d n

/-! ### One pass -/

/-- The second expression is the first one, or lighter and not larger. -/
def Shrinks (e e' : Expr) : Prop := e' = e ∨ e'.size ≤ e.size ∧ e'.weight < e.weight

theorem Shrinks.size_le (h : e.Shrinks e') : e'.size ≤ e.size := by
  rcases h with rfl | ⟨hsize, -⟩
  · exact le_rfl
  · exact hsize

theorem Shrinks.weight_le (h : e.Shrinks e') : e'.weight ≤ e.weight := by
  rcases h with rfl | ⟨-, hweight⟩
  · exact le_rfl
  · exact hweight.le

theorem Shrinks.trans (h : e.Shrinks e') (h' : e'.Shrinks r) : e.Shrinks r := by
  rcases h' with rfl | ⟨hsize, hweight⟩
  · exact h
  · exact .inr ⟨hsize.trans h.size_le, hweight.trans_le h.weight_le⟩

/-- A node shrinks with an operand, where its size and its weight grow with those of the operand. -/
theorem Shrinks.congr {f : Expr → Expr} (h : a.Shrinks a')
    (hsize : ∀ {a a' : Expr}, a'.size ≤ a.size → (f a').size ≤ (f a).size)
    (hweight : ∀ {a a' : Expr}, a'.weight < a.weight → (f a').weight < (f a).weight) :
    (f a).Shrinks (f a') := by
  rcases h with rfl | ⟨hs, hw⟩
  · exact .inl rfl
  · exact .inr ⟨hsize hs, hweight hw⟩

theorem Shrinks.congr₂ {f : Expr → Expr → Expr} (ha : a.Shrinks a') (hb : b.Shrinks b')
    (hsize : ∀ a b, (f a b).size = 1 + a.size + b.size)
    (hleft : ∀ {a a' : Expr} (b : Expr), a'.weight < a.weight → (f a' b).weight < (f a b).weight)
    (hright : ∀ (a : Expr) {b b' : Expr}, b'.weight < b.weight → (f a b').weight < (f a b).weight) :
    (f a b).Shrinks (f a' b') := by
  refine (ha.congr (f := fun a => f a b) ?_ (hleft b)).trans (hb.congr ?_ (hright a'))
  · intro a a' h
    rw [hsize, hsize]
    exact Nat.add_le_add_right (Nat.add_le_add_left h 1) _
  · intro b b' h
    rw [hsize, hsize]
    exact Nat.add_le_add_left h _

theorem isStable_shrinks : IsStable Shrinks where
  number q := .inl rfl
  atom {q e} h := by
    rcases Quantity.simplify_eq_ok h with rfl | ⟨c, rfl⟩
    · exact .inl rfl
    · exact .inr ⟨le_rfl, Nat.lt_succ_self 2⟩
  neg ha := ha.congr (fun h => Nat.add_le_add_left h 1) fun h => Nat.succ_lt_succ h
  elim p ha := ha.congr (f := fun e => .elim e p) (fun h => Nat.add_le_add_left h 1) fun h => Nat.succ_lt_succ h
  add ha hb := ha.congr₂ hb (fun _ _ => rfl)
    (fun b h => Nat.add_lt_add_right h b.weight) fun a _ _ h => Nat.add_lt_add_left h a.weight
  sub ha hb := ha.congr₂ hb (fun _ _ => rfl)
    (fun b h => Nat.add_lt_add_right h b.weight) fun a _ _ h => Nat.add_lt_add_left h a.weight
  mul ha hb := ha.congr₂ hb (fun _ _ => rfl) (fun b h => Nat.mul_lt_mul_of_pos_right h b.weight_pos)
    fun a _ _ h => Nat.mul_lt_mul_of_pos_left h a.weight_pos
  div ha hb := ha.congr₂ hb (fun _ _ => rfl)
    (fun b h => Nat.mul_lt_mul_of_pos_right (Nat.succ_lt_succ h) b.weight_pos)
    fun a _ _ h => Nat.mul_lt_mul_of_pos_left h (Nat.succ_pos a.weight)
  rewrites h hbc := h.trans (.inr ⟨hbc.size_le, hbc.weight_lt⟩)

theorem shrinks_of_simplifyOnce (h : e.simplifyOnce = .ok e') : e.Shrinks e' :=
  isStable_shrinks.of_simplifyOnce h

/-! ### All passes -/

/-- What a number of passes make of an expression. -/
def passes : ℕ → Expr → Except Error Expr
  | 0, e => .ok e
  | n + 1, e => e.simplifyOnce >>= passes n

theorem passes_succ_of_simplifyOnce {n : ℕ} (h : e.simplifyOnce = .ok e') :
    e.passes (n + 1) = e'.passes n := by
  rw [passes, h]
  rfl

/-- One more pass is a pass over what the others made. -/
theorem passes_succ {n : ℕ} (h : e.passes n = .ok r) : e.passes (n + 1) = r.simplifyOnce := by
  induction n generalizing e with
  | zero =>
      cases h
      exact bind_pure r.simplifyOnce
  | succ n ih =>
      obtain ⟨next, hnext, h⟩ := bind_eq_ok h
      rw [passes_succ_of_simplifyOnce hnext]
      exact ih h

/-- Where no pass fails, one of them comes to an expression that the next one keeps. -/
theorem exists_fixedPoint (h : ∀ n, ∃ r, e.passes n = .ok r) :
    ∃ n r, e.passes n = .ok r ∧ r.simplifyOnce = .ok r := by
  induction hweight : e.weight using Nat.strong_induction_on generalizing e with
  | _ w ih =>
      obtain ⟨next, hone⟩ := h 1
      rw [passes_succ rfl] at hone
      rcases shrinks_of_simplifyOnce hone with rfl | ⟨-, hlighter⟩
      · exact ⟨0, next, rfl, hone⟩
      · have hrest (n : ℕ) : ∃ r, next.passes n = .ok r := by
          rw [← passes_succ_of_simplifyOnce hone]
          exact h (n + 1)
        obtain ⟨n, r, hr, hfixed⟩ := ih next.weight (hweight ▸ hlighter) hrest rfl
        exact ⟨n + 1, r, (passes_succ_of_simplifyOnce hone).trans hr, hfixed⟩

section Fixed

variable (hfixed : r.simplifyOnce = .ok r)

include hfixed

theorem passes_of_fixed (n : ℕ) : r.passes n = .ok r := by
  induction n with
  | zero => rfl
  | succ n ih => exact (passes_succ_of_simplifyOnce hfixed).trans ih

theorem simplifyWithin_of_fixed (n : ℕ) : r.simplifyWithin n = .ok (r, decide (0 < n)) := by
  cases n with
  | zero => rfl
  | succ n =>
      rw [simplifyWithin, hfixed]
      exact if_pos rfl

theorem exists_passes_of_fixed {k : ℕ} (h : e.passes k = .ok r) (n : ℕ) : ∃ s, e.passes n = .ok s := by
  induction k generalizing e n with
  | zero =>
      cases h
      exact ⟨r, passes_of_fixed hfixed n⟩
  | succ k ih =>
      obtain ⟨next, hnext, hrest⟩ := bind_eq_ok h
      cases n with
      | zero => exact ⟨e, rfl⟩
      | succ n =>
          rw [passes_succ_of_simplifyOnce hnext]
          exact ih hrest n

/-- Simplification gives the fixed expression that the passes come to before the limit. -/
theorem simplifyWithin_of_passes {n limit : ℕ} (h : e.passes n = .ok r) (hlimit : n < limit) :
    e.simplifyWithin limit = .ok (r, true) := by
  induction n generalizing e limit with
  | zero =>
      cases h
      rw [simplifyWithin_of_fixed hfixed, decide_eq_true hlimit]
  | succ n ih =>
      obtain ⟨next, hnext, hrest⟩ := bind_eq_ok h
      obtain ⟨limit, rfl⟩ := Nat.exists_eq_add_one_of_ne_zero (Nat.ne_zero_of_lt hlimit)
      rw [simplifyWithin, hnext]
      -- simplification stops at the first pass that changes nothing, and so would all that follow
      by_cases hsame : next = e
      · subst hsame
        cases hrest.symm.trans (passes_of_fixed hnext n)
        exact if_pos rfl
      · exact (if_neg hsame).trans (ih hrest (Nat.lt_of_succ_lt_succ hlimit))

end Fixed

/-- Where no pass fails, none makes the expression larger, and after some number of them the next one changes
nothing. Simplification with any limit above that number gives what they came to, and keeps that as it is. -/
theorem settles_simplify (e : Expr) (h : ∀ n, ∃ r, e.passes n = .ok r) :
    (∀ n r s, e.passes n = .ok r → e.passes (n + 1) = .ok s → s.size ≤ r.size) ∧
    ∃ n r, e.passes n = .ok r ∧ r.simplifyOnce = .ok r ∧
      (∀ limit : ℤ, n < limit → e.simplify limit = .ok (r, true)) ∧
      ∀ limit : ℤ, r.simplify limit = .ok (r, decide (0 < limit)) := by
  constructor
  · intro n r s hr hs
    rw [passes_succ hr] at hs
    exact (shrinks_of_simplifyOnce hs).size_le
  · obtain ⟨n, r, hr, hfixed⟩ := exists_fixedPoint h
    refine ⟨n, r, hr, hfixed, ?_, ?_⟩
    · intro limit hlimit
      exact simplifyWithin_of_passes hfixed hr (by omega)
    · intro limit
      refine (simplifyWithin_of_fixed hfixed limit.toNat).trans ?_
      have hpos : 0 < limit.toNat ↔ 0 < limit := Int.pos_iff_toNat_pos.symm
      simp only [hpos]

end Expr

/-- A fraction of fractions less a fraction with the product of their parts as its denominator, in a marker: what
one pass makes of it has work for the next. -/
def nestedFraction : Expr :=
  .elim (.add
    (.div (.div (.number 2) (.atom (.area "A" "B" "C"))) (.div (.atom (.pythagoras "A" "B" "C")) (.number 3)))
    (.neg (.div .one (.mul (.atom (.area "A" "B" "C")) (.atom (.pythagoras "A" "B" "C")))))) "D"

/-- What `nestedFraction` settles as. -/
def settledFraction : Expr :=
  .elim (.div (.number 5) (.mul (.atom (.area "A" "B" "C")) (.atom (.pythagoras "A" "B" "C")))) "D"

theorem settles_nestedFraction :
    (∀ n, ∃ r, nestedFraction.passes n = .ok r) ∧
    (∀ n r s, nestedFraction.passes n = .ok r → nestedFraction.passes (n + 1) = .ok s → s.size ≤ r.size) ∧
    nestedFraction.passes 3 = .ok settledFraction ∧
    ∃ n, nestedFraction.passes n = .ok settledFraction ∧ settledFraction.simplifyOnce = .ok settledFraction ∧
      (∀ limit : ℤ, n < limit → nestedFraction.simplify limit = .ok (settledFraction, true)) ∧
      ∀ limit : ℤ, settledFraction.simplify limit = .ok (settledFraction, decide (0 < limit)) := by
  have hpasses : nestedFraction.passes 3 = .ok settledFraction := by decide +kernel
  have hsettled : settledFraction.simplifyOnce = .ok settledFraction := by decide +kernel
  have h := Expr.exists_passes_of_fixed hsettled hpasses
  obtain ⟨hsize, n, r, hr, hfixed, hlimit, hagain⟩ := Expr.settles_simplify nestedFraction h
  -- with a limit above both numbers of passes, simplification gives either
  have hr' := Expr.simplifyWithin_of_passes hfixed hr (show n < n + 4 by omega)
  have hsettled' := Expr.simplifyWithin_of_passes hsettled hpasses (show 3 < n + 4 by omega)
  cases hr'.symm.trans hsettled'
  exact ⟨h, hsize, hpasses, n, hr, hfixed, hlimit, hagain⟩

end Planimetry.Area
