import Planimetry.Proofs.Area.Regular
import Planimetry.Proofs.Transformation.Relabelling

/-! Expressions under other names: simplification, fractions and elimination do the same to them. -/

namespace Planimetry.Area

variable {f : Label → Label} (hf : f.Injective)

theorem toOption_bind {ε α β : Type} (x : Except ε α) (g : α → Except ε β) :
    (x >>= g).toOption = x.toOption.bind fun a => (g a).toOption := by
  cases x <;> rfl

theorem toOption_eq_some {ε α : Type} {x : Except ε α} {a : α} : x.toOption = some a ↔ x = .ok a := by
  cases x <;> simp [Except.toOption]

/-! ### Simplification -/

include hf in
theorem Quantity.relabel_injective : Function.Injective (Quantity.relabel f) := by
  intro q r h
  cases q <;> cases r <;> simp_all [relabel, hf.eq_iff]

include hf in
theorem Quantity.simplify_relabel (q : Quantity) :
    (q.relabel f).simplify.toOption = q.simplify.toOption.map (Expr.relabel f) := by
  cases q with
  | area a b c =>
      have hnodup : [f a, f b, f c].Nodup ↔ [a, b, c].Nodup :=
        List.nodup_map_iff (l := [a, b, c]) hf
      simp only [relabel, simplify, hnodup]
      split <;> rfl
  | pythagoras a b c =>
      simp only [relabel, simplify, hf.eq_iff]
      split <;> rfl
  | ratio a b c d =>
      simp only [relabel, simplify, hf.eq_iff]
      split_ifs <;> rfl

namespace Expr

variable (a b e : Expr)

include hf in
theorem relabel_injective : Function.Injective (Expr.relabel f) := by
  intro a b h
  induction a generalizing b with
  | number q => cases b <;> simp_all [relabel]
  | atom q => cases b <;> simp_all [relabel, (Quantity.relabel_injective hf).eq_iff]
  | add l r ihl ihr | sub l r ihl ihr | mul l r ihl ihr | div l r ihl ihr =>
      cases b <;> simp only [relabel, reduceCtorEq, add.injEq, sub.injEq, mul.injEq, div.injEq] at h
      rw [ihl h.1, ihr h.2]
  | neg e ih =>
      cases b <;> simp only [relabel, reduceCtorEq, neg.injEq] at h
      rw [ih h]
  | elim e p ih =>
      cases b <;> simp only [relabel, reduceCtorEq, elim.injEq] at h
      rw [ih h.1, hf h.2]

@[simp] theorem isZero_relabel (f : Label → Label) (e : Expr) : (e.relabel f).isZero = e.isZero := by
  cases e <;> rfl

@[simp] theorem isOne_relabel (f : Label → Label) (e : Expr) : (e.relabel f).isOne = e.isOne := by
  cases e <;> rfl

theorem simplifyNeg_relabel (f : Label → Label) :
    (a.relabel f).simplifyNeg = a.simplifyNeg.relabel f := by
  cases a <;> rfl

include hf

theorem simplifyAdd_relabel :
    (a.relabel f).simplifyAdd (b.relabel f) = (a.simplifyAdd b).relabel f := by
  unfold simplifyAdd
  rw [isZero_relabel, isZero_relabel]
  split
  next => rfl
  next =>
    split
    next => rfl
    next =>
      cases a <;> cases b <;> simp only [relabel, (relabel_injective hf).eq_iff]
      split <;> rfl

theorem simplifySub_relabel :
    (a.relabel f).simplifySub (b.relabel f) = (a.simplifySub b).relabel f := by
  unfold simplifySub
  rw [isZero_relabel, isZero_relabel]
  split
  next => rfl
  next =>
    split
    next => rfl
    next =>
      by_cases hab : a = b
      · subst hab
        cases a <;> simp only [relabel, if_true, zero]
      · have hab' : a.relabel f ≠ b.relabel f := (relabel_injective hf).ne hab
        cases a <;> cases b <;> simp only [relabel] at hab' ⊢ <;>
          simp only [if_neg hab, if_neg hab', (relabel_injective hf).eq_iff, relabel]
        split <;> rfl

omit hf in
theorem simplifyMul_relabel :
    (a.relabel f).simplifyMul (b.relabel f) = (a.simplifyMul b).relabel f := by
  unfold simplifyMul minusOne
  rw [isZero_relabel, isZero_relabel, isOne_relabel, isOne_relabel]
  split
  next => rfl
  next =>
    split
    next => rfl
    next =>
      split
      next => rfl
      next =>
        cases a <;> cases b <;> simp only [relabel, reduceCtorEq, if_false] <;>
          first | rfl | (split_ifs <;> rfl)

theorem simplifyDiv_relabel :
    ((a.relabel f).simplifyDiv (b.relabel f)).toOption =
      (a.simplifyDiv b).toOption.map (relabel f) := by
  unfold simplifyDiv minusOne
  rw [isZero_relabel, isZero_relabel, isOne_relabel]
  split
  next => rfl
  next =>
    split
    next => rfl
    next =>
      split
      next => rfl
      next =>
        by_cases hab : a = b
        · subst hab
          cases a <;> simp only [relabel, if_true, one] <;> rfl
        · have hab' : a.relabel f ≠ b.relabel f := (relabel_injective hf).ne hab
          cases a <;> cases b <;> simp only [relabel] at hab' ⊢ <;>
            first
              | rfl
              | (simp only [if_neg hab, if_neg hab', reduceCtorEq, if_false]
                 first | rfl | (split_ifs <;> rfl))

omit hf in
/-- What joins two results under other names joins the renamed results. -/
theorem toOption_join {x x' y y' : Except Error Expr} {k : Expr → Expr → Except Error Expr}
    (hx : x'.toOption = x.toOption.map (relabel f)) (hy : y'.toOption = y.toOption.map (relabel f))
    (hk : ∀ a b, (k (a.relabel f) (b.relabel f)).toOption = (k a b).toOption.map (relabel f)) :
    (do k (← x') (← y')).toOption = (do k (← x) (← y)).toOption.map (relabel f) := by
  simp only [toOption_bind, hx, hy, Option.bind_map, Option.map_bind, Function.comp_def, hk]

theorem simplifyOnce_relabel :
    (e.relabel f).simplifyOnce.toOption = e.simplifyOnce.toOption.map (relabel f) := by
  induction e with
  | number q => rfl
  | atom q => exact q.simplify_relabel hf
  | neg e ih =>
      simp only [relabel, simplifyOnce, toOption_bind, ih, Option.bind_map, Option.map_bind]
      exact Option.bind_congr fun a _ => congr_arg some (simplifyNeg_relabel a f)
  | elim e p ih =>
      simp only [relabel, simplifyOnce, toOption_bind, ih, Option.bind_map, Option.map_bind]
      rfl
  | add l r ihl ihr =>
      exact toOption_join (k := fun a b => .ok (a.simplifyAdd b)) ihl ihr fun a b =>
        congr_arg some (simplifyAdd_relabel hf a b)
  | sub l r ihl ihr =>
      exact toOption_join (k := fun a b => .ok (a.simplifySub b)) ihl ihr fun a b =>
        congr_arg some (simplifySub_relabel hf a b)
  | mul l r ihl ihr =>
      exact toOption_join (k := fun a b => .ok (a.simplifyMul b)) ihl ihr fun a b =>
        congr_arg some (simplifyMul_relabel a b)
  | div n d ihn ihd => exact toOption_join ihn ihd (simplifyDiv_relabel hf)

theorem simplifyWithin_relabel (n : ℕ) :
    ((e.relabel f).simplifyWithin n).toOption =
      (e.simplifyWithin n).toOption.map fun r => (r.1.relabel f, r.2) := by
  induction n generalizing e with
  | zero => rfl
  | succ n ih =>
      simp only [simplifyWithin, toOption_bind, simplifyOnce_relabel hf, Option.bind_map,
        Option.map_bind]
      refine Option.bind_congr fun next _ => ?_
      simp only [Function.comp_apply, (relabel_injective hf).eq_iff]
      split
      next => rfl
      next => exact ih next

/-! ### Fractions -/

variable (c d : Option Expr)

omit hf in
theorem times_relabel (f : Label → Label) :
    (a.relabel f).times (d.map (relabel f)) = (a.times d).relabel f := by
  cases d <;> rfl

omit hf in
theorem timesOption_relabel (f : Label → Label) :
    timesOption (c.map (relabel f)) (d.map (relabel f)) = (timesOption c d).map (relabel f) := by
  cases c with
  | none => rfl
  | some a => exact congr_arg some (times_relabel a d f)

theorem split_relabel : (e.relabel f).split = (e.split.1.relabel f, e.split.2.map (relabel f)) := by
  have hsame {c d : Option Expr} : c.map (relabel f) = d.map (relabel f) ↔ c = d :=
    (Option.map_injective (relabel_injective hf)).eq_iff
  induction e with
  | number q => rfl
  | atom q => rfl
  | elim e p _ => rfl
  | neg e ih => simp only [relabel, split, ih]
  | mul l r ihl ihr => simp only [relabel, split, ihl, ihr, timesOption_relabel]
  | div n d ihn ihd =>
      simp only [relabel, split, ihn, ihd, times_relabel]
      exact congr_arg (Prod.mk _) (timesOption_relabel n.split.2 (some d.split.1) f)
  | add l r ihl ihr | sub l r ihl ihr =>
      simp only [relabel, split, ihl, ihr, times_relabel, timesOption_relabel, hsame]
      split <;> rfl

omit hf in
theorem joinAdd_relabel (f : Label → Label) :
    (a.relabel f).joinAdd (b.relabel f) = (a.joinAdd b).relabel f := by
  induction a with
  | add l r _ ih => simp only [relabel, joinAdd, ih]
  | _ => rfl

omit hf in
theorem joinMul_relabel (f : Label → Label) :
    (a.relabel f).joinMul (b.relabel f) = (a.joinMul b).relabel f := by
  induction a with
  | mul l r _ ih => simp only [relabel, joinMul, ih]
  | _ => rfl

omit hf in
theorem rightAssociative_relabel (f : Label → Label) :
    (e.relabel f).rightAssociative = e.rightAssociative.relabel f := by
  have hminus (e : Expr) : joinMul minusOne (e.relabel f) = (joinMul minusOne e).relabel f := rfl
  induction e with
  | number q => rfl
  | atom q => rfl
  | elim e p ih => simp only [relabel, rightAssociative, ih]
  | neg e ih => simp only [relabel, rightAssociative, ih, hminus]
  | add l r ihl ihr => simp only [relabel, rightAssociative, ihl, ihr, joinAdd_relabel]
  | sub l r ihl ihr => simp only [relabel, rightAssociative, ihl, ihr, hminus, joinAdd_relabel]
  | mul l r ihl ihr => simp only [relabel, rightAssociative, ihl, ihr, joinMul_relabel]
  | div n d ihn ihd => simp only [relabel, rightAssociative, ihn, ihd]

/-- The numerator that is expanded is that under the other names. -/
theorem numerator_relabel : (e.relabel f).numerator.rightAssociative =
    e.numerator.rightAssociative.relabel f := by
  rw [numerator_eq, numerator_eq, split_relabel hf, rightAssociative_relabel]

end Expr

/-! ### Rules -/

namespace Rule

def relabel (f : Label → Label) : Rule → Rule
  | .affine weights => .affine (weights.map fun w => (f w.1, w.2.relabel f))
  | .turn p u v r => .turn (f p) (f u) (f v) (r.relabel f)

variable (r : Rule) (a b c : Label) (weights : List (Label × Expr))

include hf in
theorem addWeight_relabel (p : Label) (w : Expr) :
    addWeight (f p) (w.relabel f) (weights.map fun w => (f w.1, w.2.relabel f)) =
      (addWeight p w weights).map fun w => (f w.1, w.2.relabel f) := by
  induction weights with
  | nil => rfl
  | cons v rest ih =>
      rw [List.map_cons]
      unfold addWeight
      rw [ih]
      simp only [hf.eq_iff]
      split <;> rfl

include hf in
theorem weighted_relabel :
    weighted (weights.map fun w => (f w.1, w.2.relabel f)) = (weighted weights).relabel f := by
  have hfoldl (ws : List (Label × Expr)) :
      (weights.map fun w => (f w.1, w.2.relabel f)).foldl (fun ws w => addWeight w.1 w.2 ws)
          (ws.map fun w => (f w.1, w.2.relabel f)) =
        (weights.foldl (fun ws w => addWeight w.1 w.2 ws) ws).map fun w => (f w.1, w.2.relabel f) := by
    induction weights generalizing ws with
    | nil => rfl
    | cons w rest ih =>
        rw [List.map_cons, List.foldl_cons, List.foldl_cons, ← ih, addWeight_relabel hf]
  exact congr_arg Rule.affine (hfoldl [])

theorem sum_relabel (f : Label → Label) (e : Expr) (es : List Expr) :
    sum (e.relabel f) (es.map (Expr.relabel f)) = (sum e es).relabel f := by
  induction es generalizing e with
  | nil => rfl
  | cons e' es ih => exact congr_arg (Expr.add (e.relabel f)) (ih e')

theorem total_relabel (f : Label → Label) (es : List Expr) :
    total (es.map (Expr.relabel f)) = (total es).relabel f := by
  cases es with
  | nil => rfl
  | cons e es => exact sum_relabel f e es

theorem average_relabel (f : Label → Label) {q q' : Label → Expr}
    (h : ∀ l, q' (f l) = (q l).relabel f) :
    average (weights.map fun w => (f w.1, w.2.relabel f)) q' = (average weights q).relabel f := by
  unfold average
  rw [← total_relabel, List.map_map, List.map_map]
  refine congr_arg total (List.map_congr_left fun w _ => ?_)
  simp only [Function.comp_apply, h, Expr.relabel]

theorem areaWith_relabel (f : Label → Label) :
    (r.relabel f).areaWith (f a) (f b) = (r.areaWith a b).relabel f := by
  cases r with
  | affine weights => exact average_relabel weights f fun _ => rfl
  | turn p u v e => rfl

theorem pythagorasWith_relabel (f : Label → Label) :
    (r.relabel f).pythagorasWith (f a) (f b) = (r.pythagorasWith a b).relabel f := by
  cases r with
  | affine weights => exact average_relabel weights f fun _ => rfl
  | turn p u v e => rfl

theorem pythagorasAt_relabel (f : Label → Label) :
    (r.relabel f).pythagorasAt (f a) (f c) = (r.pythagorasAt a c).relabel f := by
  cases r with
  | affine weights =>
      simp only [relabel, pythagorasAt, ← total_relabel, pairs_map, List.map_append, List.map_map]
      rfl
  | turn p u v e => rfl

end Rule

namespace Definition

/-- A definition under other names, apart from its description. -/
structure Resembles (f : Label → Label) (d d' : Definition) : Prop where
  point : d'.point = f d.point
  rule : d'.rule = d.rule.relabel f
  denominators : d'.denominators = d.denominators.map (Expr.relabel f)
  parameter : d'.parameter = d.parameter.map (Quantity.relabel f)

variable {d d' : Definition} {q : Quantity}

include hf in
/-- What a definition makes of a quantity, its counterpart makes of the renamed quantity. -/
theorem Resembles.eliminate (h : d.Resembles f d') (q : Quantity) :
    (d'.eliminate (q.relabel f)).toOption = (d.eliminate q).toOption.map (Expr.relabel f) := by
  have hpoint (a : Label) : f a = d'.point ↔ a = d.point := by rw [h.point, hf.eq_iff]
  cases q with
  | ratio a b u v => rfl
  | area a b c =>
      have hbeq (a : Label) : (f a == d'.point) = (a == d.point) := by
        rw [Bool.eq_iff_iff, beq_iff_eq, beq_iff_eq, hpoint]
      simp only [Quantity.relabel, Definition.eliminate, Definition.area, hbeq, h.rule,
        Rule.areaWith_relabel]
      cases a == d.point <;> cases b == d.point <;> cases c == d.point <;> rfl
  | pythagoras a b c =>
      simp only [Quantity.relabel, Definition.eliminate, Definition.pythagoras, hpoint, h.rule,
        Rule.pythagorasWith_relabel, Rule.pythagorasAt_relabel]
      split_ifs <;> rfl

end Definition

end Planimetry.Area
