import Planimetry.Proofs.Area.Exactness

/-! Right-associative form: what rewriting node by node comes to, the shape of the result, and its value. Markers are
looked through. -/

namespace Planimetry.Area

namespace Expr

variable {a b e f : Expr} {es : List Expr} {op : Operation}

/-! ### Rewriting node by node -/

/-- The operands of a sum or product that goes on in its right operand. -/
def operands : Operation → Expr → List Expr
  | .add, .add l r => l :: operands .add r
  | .mul, .mul l r => l :: operands .mul r
  | _, e => [e]

/-- Joins operands from the last one on. -/
def chain (op : Operation) : List Expr → Expr
  | [] => .zero
  | [e] => e
  | e :: f :: es => op.node e (chain op (f :: es))

/-- What an expression is rewritten to. In place of a difference a sum is rewritten, and in place of an inverse a
product, neither of which is a part of it; sums and products are joined anew from the operands of their rewritten
parts. -/
inductive Rewritten : Expr → Expr → Prop
  | number (q : ℚ) : Rewritten (.number q) (.number q)
  | atom (q : Quantity) : Rewritten (.atom q) (.atom q)
  | add {l r l' r' : Expr} (hl : Rewritten l l') (hr : Rewritten r r') :
      Rewritten (.add l r) (chain .add (l'.operands .add ++ r'.operands .add))
  | sub {l r e : Expr} (h : Rewritten (.add l (.mul minusOne r)) e) : Rewritten (.sub l r) e
  | mul {l r l' r' : Expr} (hl : Rewritten l l') (hr : Rewritten r r') :
      Rewritten (.mul l r) (chain .mul (l'.operands .mul ++ r'.operands .mul))
  | div {n d n' d' : Expr} (hn : Rewritten n n') (hd : Rewritten d d') : Rewritten (.div n d) (.div n' d')
  | neg {a e : Expr} (h : Rewritten (.mul minusOne a) e) : Rewritten (.neg a) e
  | elim {e e' : Expr} (p : Label) (h : Rewritten e e') : Rewritten (.elim e p) (.elim e' p)

theorem operands_ne_nil (op : Operation) (e : Expr) : e.operands op ≠ [] := by
  unfold operands
  split <;> exact List.cons_ne_nil _ _

theorem chain_cons (h : es ≠ []) : chain op (e :: es) = op.node e (chain op es) := by
  cases es with
  | nil => exact absurd rfl h
  | cons f es => rfl

/-- The operands of an expression make it up. -/
theorem chain_operands (op : Operation) (e : Expr) : chain op (e.operands op) = e := by
  fun_induction operands op e with
  | case1 l r ih => rw [chain_cons (operands_ne_nil _ _), ih]; rfl
  | case2 l r ih => rw [chain_cons (operands_ne_nil _ _), ih]; rfl
  | case3 => rfl

theorem chain_cons_append (l : Expr) (es : List Expr) (b : Expr) :
    chain op (l :: es ++ b.operands op) = op.node l (chain op (es ++ b.operands op)) :=
  chain_cons (List.append_ne_nil_of_right_ne_nil es (operands_ne_nil op b))

theorem chain_eq_joinAdd (a b : Expr) : chain .add (a.operands .add ++ b.operands .add) = a.joinAdd b := by
  induction a with
  | add l r _ ih =>
      rw [operands, chain_cons_append, ih]
      rfl
  | _ =>
      refine (chain_cons_append _ [] b).trans ?_
      rw [List.nil_append, chain_operands]
      rfl

theorem chain_eq_joinMul (a b : Expr) : chain .mul (a.operands .mul ++ b.operands .mul) = a.joinMul b := by
  induction a with
  | mul l r _ ih =>
      rw [operands, chain_cons_append, ih]
      rfl
  | _ =>
      refine (chain_cons_append _ [] b).trans ?_
      rw [List.nil_append, chain_operands]
      rfl

/-- Rewriting ends, and with the right-associative form only. -/
theorem rewritten_iff : e.Rewritten f ↔ f = e.rightAssociative := by
  constructor
  · intro h
    induction h with
    | number q => rfl
    | atom q => rfl
    | add _ _ ihl ihr => rw [chain_eq_joinAdd, ihl, ihr, rightAssociative]
    | mul _ _ ihl ihr => rw [chain_eq_joinMul, ihl, ihr, rightAssociative]
    | sub _ ih => exact ih
    | neg _ ih => exact ih
    | div _ _ ihn ihd => rw [ihn, ihd, rightAssociative]
    | elim p _ ih => rw [ih, rightAssociative]
  · rintro rfl
    -- the nodes that are rewritten for a difference and an inverse are built from parts of the expression
    have hadd {l r l' r' : Expr} (hl : l.Rewritten l') (hr : r.Rewritten r') :
        (Expr.add l r).Rewritten (l'.joinAdd r') := chain_eq_joinAdd l' r' ▸ hl.add hr
    have hmul {l r l' r' : Expr} (hl : l.Rewritten l') (hr : r.Rewritten r') :
        (Expr.mul l r).Rewritten (l'.joinMul r') := chain_eq_joinMul l' r' ▸ hl.mul hr
    have hminus : minusOne.Rewritten minusOne := .number (-1)
    induction e with
    | number q => exact .number q
    | atom q => exact .atom q
    | add l r ihl ihr => exact hadd ihl ihr
    | sub l r ihl ihr => exact .sub (hadd ihl (hmul hminus ihr))
    | mul l r ihl ihr => exact hmul ihl ihr
    | div n d ihn ihd => exact ihn.div ihd
    | neg e ih => exact .neg (hmul hminus ih)
    | elim e p ih => exact ih.elim p

/-! ### The shape of the result -/

def isSum : Expr → Bool
  | .add .. => true
  | _ => false

def isProduct : Expr → Bool
  | .mul .. => true
  | _ => false

/-- No differences, no inverses, and no sum or product as the left operand of its own kind. -/
def IsRightAssociative : Expr → Prop
  | .number _ | .atom _ => True
  | .add l r => l.isSum = false ∧ l.IsRightAssociative ∧ r.IsRightAssociative
  | .mul l r => l.isProduct = false ∧ l.IsRightAssociative ∧ r.IsRightAssociative
  | .div n d => n.IsRightAssociative ∧ d.IsRightAssociative
  | .elim e _ => e.IsRightAssociative
  | .sub .. | .neg _ => False

theorem joinAdd_of_isSum_eq_false (h : a.isSum = false) (b : Expr) : a.joinAdd b = .add a b := by
  cases a with
  | add l r => cases h
  | _ => rfl

theorem joinMul_of_isProduct_eq_false (h : a.isProduct = false) (b : Expr) : a.joinMul b = .mul a b := by
  cases a with
  | mul l r => cases h
  | _ => rfl

theorem IsRightAssociative.joinAdd (ha : a.IsRightAssociative) (hb : b.IsRightAssociative) :
    (a.joinAdd b).IsRightAssociative := by
  induction a with
  | add l r _ ih => exact ⟨ha.1, ha.2.1, ih ha.2.2⟩
  | _ => exact ⟨rfl, ha, hb⟩

theorem IsRightAssociative.joinMul (ha : a.IsRightAssociative) (hb : b.IsRightAssociative) :
    (a.joinMul b).IsRightAssociative := by
  induction a with
  | mul l r _ ih => exact ⟨ha.1, ha.2.1, ih ha.2.2⟩
  | _ => exact ⟨rfl, ha, hb⟩

theorem isRightAssociative_rightAssociative (e : Expr) : e.rightAssociative.IsRightAssociative := by
  have hminus : minusOne.IsRightAssociative := trivial
  induction e with
  | number q => trivial
  | atom q => trivial
  | add l r ihl ihr => exact ihl.joinAdd ihr
  | sub l r ihl ihr => exact ihl.joinAdd (hminus.joinMul ihr)
  | mul l r ihl ihr => exact ihl.joinMul ihr
  | div n d ihn ihd => exact ⟨ihn, ihd⟩
  | neg e ih => exact hminus.joinMul ih
  | elim e p ih => exact ih

/-- An expression of this shape is rewritten to itself. -/
theorem IsRightAssociative.rightAssociative_eq (he : e.IsRightAssociative) : e.rightAssociative = e := by
  induction e with
  | number q => rfl
  | atom q => rfl
  | add l r ihl ihr =>
      obtain ⟨hsum, hl, hr⟩ := he
      rw [rightAssociative, ihl hl, ihr hr, joinAdd_of_isSum_eq_false hsum]
  | mul l r ihl ihr =>
      obtain ⟨hproduct, hl, hr⟩ := he
      rw [rightAssociative, ihl hl, ihr hr, joinMul_of_isProduct_eq_false hproduct]
  | div n d ihn ihd => rw [rightAssociative, ihn he.1, ihd he.2]
  | elim e p ih => rw [rightAssociative, ih he]
  | sub l r _ _ => exact he.elim
  | neg e _ => exact he.elim

/-! ### Its value -/

theorem isReading_unmark (ν : Quantity → ℚ) : IsReading fun e x => e.unmark.Denotes ν x where
  number := denotes_number_iff
  neg := denotes_neg_iff
  add := denotes_add_iff
  sub := denotes_sub_iff
  mul := denotes_mul_iff
  div := denotes_div_iff
  unique := Denotes.eq

/-- Rewriting ends with one result, in which no difference and no inverse occurs and no sum or product is the left
operand of its own kind, and which is rewritten to itself. Where no denominator of the expression is zero, none of
the result is, and both have the same value. -/
theorem arranges_rightAssociative (e : Expr) :
    (∀ f, e.Rewritten f ↔ f = e.rightAssociative) ∧ e.rightAssociative.IsRightAssociative ∧
      e.rightAssociative.rightAssociative = e.rightAssociative ∧
      ∀ ν, e.unmark.IsDefined ν →
        e.rightAssociative.unmark.IsDefined ν ∧ e.rightAssociative.valueAt ν = e.valueAt ν := by
  have hshape := isRightAssociative_rightAssociative e
  refine ⟨fun _ => rewritten_iff, hshape, hshape.rightAssociative_eq, ?_⟩
  intro ν he
  obtain ⟨hdefined, hvalue⟩ := (isReading_unmark ν).rightAssociative (fun h => h _) (denotes_self he)
  rw [valueAt_unmark, valueAt_unmark] at hvalue
  exact ⟨hdefined, hvalue⟩

end Expr

/-- A difference with a sum on its left, over an inverse of a product with a product on its left, marked. -/
def tangledExpr : Expr :=
  .elim (.div (.sub (.add (.atom (.area "A" "B" "C")) (.atom (.area "A" "B" "D")))
      (.sub (.atom (.pythagoras "A" "B" "C")) .one))
    (.neg (.mul (.mul (.atom (.ratio "A" "B" "C" "D")) (.number 2)) (.atom (.area "A" "B" "C"))))) "D"

/-- The right-associative form of `tangledExpr`. -/
def straightExpr : Expr :=
  .elim (.div (.add (.atom (.area "A" "B" "C")) (.add (.atom (.area "A" "B" "D"))
      (.mul .minusOne (.add (.atom (.pythagoras "A" "B" "C")) (.mul .minusOne .one)))))
    (.mul .minusOne (.mul (.atom (.ratio "A" "B" "C" "D")) (.mul (.number 2) (.atom (.area "A" "B" "C")))))) "D"

theorem arranges_tangledExpr :
    tangledExpr.unmark.IsDefined (fun _ => 3) ∧ tangledExpr.Rewritten straightExpr ∧
      straightExpr.IsRightAssociative ∧ straightExpr.rightAssociative = straightExpr ∧
      straightExpr.unmark.IsDefined (fun _ => 3) ∧
      straightExpr.valueAt (fun _ => 3) = tangledExpr.valueAt (fun _ => 3) := by
  have hstraight : straightExpr = tangledExpr.rightAssociative := rfl
  have hdefined : tangledExpr.unmark.IsDefined fun _ => 3 := by
    refine ⟨⟨⟨trivial, trivial⟩, trivial, trivial⟩, ⟨⟨trivial, trivial⟩, trivial⟩, ?_⟩
    decide +kernel
  obtain ⟨hrewritten, hshape, hfixed, hvalue⟩ := Expr.arranges_rightAssociative tangledExpr
  rw [hstraight]
  exact ⟨hdefined, (hrewritten _).2 rfl, hshape, hfixed, hvalue _ hdefined⟩

end Planimetry.Area
