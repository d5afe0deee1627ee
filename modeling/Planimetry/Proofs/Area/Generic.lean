import Mathlib.Algebra.CharZero.Infinite
import Mathlib.Algebra.MvPolynomial.Funext
import Planimetry.Proofs.Area.Parameters

/-! Generic placements: along a line of values for the coordinates of the free points and for the free
ratios, no denominator and no polynomial vanishes but at finitely many places unless it vanishes
identically or at the start. -/

open scoped Polynomial

namespace Planimetry.Area

section Rational

/-- A quotient of polynomials, where its denominator is not zero; at zero it is not. -/
def IsRational (f : ℚ → ℚ) : Prop :=
  ∃ a b : ℚ[X], b.eval 0 ≠ 0 ∧ ∀ t, b.eval t ≠ 0 → f t = a.eval t / b.eval t

variable {f g : ℚ → ℚ}

theorem isRational_const (c : ℚ) : IsRational fun _ => c :=
  ⟨.C c, 1, by simp, fun t _ => by simp⟩

theorem isRational_id : IsRational fun t => t := ⟨.X, 1, by simp, fun t _ => by simp⟩

theorem IsRational.add (hf : IsRational f) (hg : IsRational g) : IsRational fun t => f t + g t := by
  obtain ⟨a, b, hb, hf⟩ := hf
  obtain ⟨c, d, hd, hg⟩ := hg
  refine ⟨a * d + b * c, b * d, ?_, fun t ht => ?_⟩
  · rw [Polynomial.eval_mul]
    exact mul_ne_zero hb hd
  · rw [Polynomial.eval_mul] at ht
    have hbt := left_ne_zero_of_mul ht
    have hdt := right_ne_zero_of_mul ht
    simp only [hf t hbt, hg t hdt, Polynomial.eval_add, Polynomial.eval_mul]
    exact div_add_div _ _ hbt hdt

theorem IsRational.mul (hf : IsRational f) (hg : IsRational g) : IsRational fun t => f t * g t := by
  obtain ⟨a, b, hb, hf⟩ := hf
  obtain ⟨c, d, hd, hg⟩ := hg
  refine ⟨a * c, b * d, ?_, fun t ht => ?_⟩
  · rw [Polynomial.eval_mul]
    exact mul_ne_zero hb hd
  · rw [Polynomial.eval_mul] at ht
    simp only [hf t (left_ne_zero_of_mul ht), hg t (right_ne_zero_of_mul ht), Polynomial.eval_mul]
    exact div_mul_div_comm _ _ _ _

theorem IsRational.neg (hf : IsRational f) : IsRational fun t => -f t := by
  have hmul := (isRational_const (-1)).mul hf
  simpa only [neg_one_mul] using hmul

theorem IsRational.sub (hf : IsRational f) (hg : IsRational g) : IsRational fun t => f t - g t := by
  have hadd := hf.add hg.neg
  simpa only [← sub_eq_add_neg] using hadd

theorem IsRational.inv (hf : IsRational f) (h0 : f 0 ≠ 0) : IsRational fun t => (f t)⁻¹ := by
  obtain ⟨a, b, hb, hf⟩ := hf
  have ha : a.eval 0 ≠ 0 := by
    intro ha
    rw [hf 0 hb, ha, zero_div] at h0
    exact h0 rfl
  refine ⟨b * b, a * b, ?_, fun t ht => ?_⟩
  · rw [Polynomial.eval_mul]
    exact mul_ne_zero ha hb
  · rw [Polynomial.eval_mul] at ht
    have hbt := right_ne_zero_of_mul ht
    simp only [hf t hbt, Polynomial.eval_mul]
    rw [inv_div, mul_div_mul_right _ _ hbt]

theorem IsRational.div (hf : IsRational f) (hg : IsRational g) (h0 : g 0 ≠ 0) :
    IsRational fun t => f t / g t := by
  have hmul := hf.mul (hg.inv h0)
  simpa only [← div_eq_mul_inv] using hmul

theorem isRational_sum {α : Type} {xs : List α} {f : α → ℚ → ℚ} (h : ∀ x ∈ xs, IsRational (f x)) :
    IsRational fun t => (xs.map fun x => f x t).sum := by
  induction xs with
  | nil => exact isRational_const 0
  | cons x xs ih =>
      obtain ⟨hx, hrest⟩ := List.forall_mem_cons.1 h
      simpa only [List.map_cons, List.sum_cons] using hx.add (ih hrest)

/-- The zeros of a polynomial that is not zero are finitely many. -/
theorem finite_zeros {a : ℚ[X]} (ha : a ≠ 0) : {t | a.eval t = 0}.Finite :=
  a.roots.toFinset.finite_toSet.subset fun t ht => by
    simpa [ha] using ht

theorem IsRational.finite_zeros (hf : IsRational f) (h0 : f 0 ≠ 0) : {t | f t = 0}.Finite := by
  obtain ⟨a, b, hb, hf⟩ := hf
  have ha : a.eval 0 ≠ 0 := by
    intro ha
    rw [hf 0 hb, ha, zero_div] at h0
    exact h0 rfl
  have hab : a * b ≠ 0 := by
    refine mul_ne_zero ?_ ?_ <;> rintro rfl
    · exact ha Polynomial.eval_zero
    · exact hb Polynomial.eval_zero
  refine (Area.finite_zeros hab).subset fun t (ht : f t = 0) => ?_
  change (a * b).eval t = 0
  rw [Polynomial.eval_mul, mul_eq_zero]
  by_contra hne
  rw [not_or] at hne
  have hquotient := hf t hne.2
  rw [ht] at hquotient
  exact (div_ne_zero hne.1 hne.2) hquotient.symm

end Rational

section Expressions

variable {place : ℚ → Label → ℚ × ℚ} {ratio : ℚ → Quantity → ℚ} {ν : ℚ → Quantity → ℚ}

/-- Quantities are regular where coordinates and canonical ratios are. -/
theorem Quantity.isRational_valueAt (hx : ∀ l, IsRational fun t => (place t l).1)
    (hy : ∀ l, IsRational fun t => (place t l).2) (hratio : ∀ k, IsRational fun t => ratio t k)
    (q : Quantity) : IsRational fun t => q.valueAt (place t) (ratio t) := by
  have hsquare (a b : Label) : IsRational fun t => squareDistance (place t a) (place t b) := by
    have hdx := (hx b).sub (hx a)
    have hdy := (hy b).sub (hy a)
    simpa only [squareDistance, sq] using (hdx.mul hdx).add (hdy.mul hdy)
  cases q with
  | area a b c =>
      exact ((((hx b).sub (hx a)).mul ((hy c).sub (hy a))).sub
        (((hy b).sub (hy a)).mul ((hx c).sub (hx a)))).div (isRational_const 2) two_ne_zero
  | pythagoras a b c => exact ((hsquare a b).add (hsquare c b)).sub (hsquare a c)
  | ratio a b c d =>
      change IsRational fun t => ratioAt (ratio t) (.ratio a b c d)
      cases ho : (Quantity.ratio a b c d).orient with
      | error e =>
          unfold ratioAt
          simpa only [ho] using isRational_const 0
      | ok o =>
          simp only [ratioAt_eq ho, Oriented.valueAt]
          cases o.quantity with
          | none => exact isRational_const (o.factor * 1)
          | some k => exact (isRational_const _).mul (hratio k)

theorem Expr.isRational_valueAt (hν : ∀ q, IsRational fun t => ν t q) {e : Expr}
    (he : e.IsDefined (ν 0)) : IsRational fun t => e.valueAt (ν t) := by
  induction e with
  | number q => exact isRational_const q
  | atom q => exact hν q
  | add l r ihl ihr => exact (ihl he.1).add (ihr he.2)
  | sub l r ihl ihr => exact (ihl he.1).sub (ihr he.2)
  | mul l r ihl ihr => exact (ihl he.1).mul (ihr he.2)
  | div n d ihn ihd => exact (ihn he.1).div (ihd he.2.1) he.2.2
  | neg e ih => exact (ih he).neg
  | elim e p => exact he.elim

theorem isRational_weightedSum (hν : ∀ q, IsRational fun t => ν t q)
    {weights : List (Label × Expr)} (hweights : ∀ w ∈ weights, w.2.IsDefined (ν 0))
    {f : ℚ → Label → ℚ} (hf : ∀ l, IsRational fun t => f t l) :
    IsRational fun t => weightedSum (ν t) weights (f t) :=
  isRational_sum fun w hw => (Expr.isRational_valueAt hν (hweights w hw)).mul (hf w.1)

theorem Rule.isRational_pointAt (hν : ∀ q, IsRational fun t => ν t q)
    (hx : ∀ l, IsRational fun t => (place t l).1) (hy : ∀ l, IsRational fun t => (place t l).2)
    {r : Rule} (hr : r.IsDefined (ν 0)) :
    (IsRational fun t => (r.pointAt (ν t) (place t)).1) ∧
      IsRational fun t => (r.pointAt (ν t) (place t)).2 := by
  cases r with
  | affine weights =>
      exact ⟨isRational_weightedSum hν hr.1 hx, isRational_weightedSum hν hr.1 hy⟩
  | turn p u v r =>
      have hvalue := Expr.isRational_valueAt hν hr
      exact ⟨(hx p).sub (hvalue.mul ((hy v).sub (hy u))),
        (hy p).add (hvalue.mul ((hx v).sub (hx u)))⟩

end Expressions

section Placements

variable {free : List Label} {ds : List Definition} {d : Definition} {f : ℚ → Label → ℚ × ℚ}
  {ratio : ℚ → Quantity → ℚ}

/-- The denominators of earlier definitions do not depend on where the last one puts its point. -/
theorem IsOrdered.denominators_of_cons {f : Label → ℚ × ℚ} {ratio : Quantity → ℚ}
    (h : IsOrdered free (d :: ds))
    (hne : ∀ e ∈ d :: ds, ∀ n ∈ e.denominators,
      n.valueAt (Quantity.valueAt (placeAll f ratio (d :: ds)) ratio) ≠ 0) :
    (∀ e ∈ ds, ∀ n ∈ e.denominators, n.valueAt (Quantity.valueAt (placeAll f ratio ds) ratio) ≠ 0) ∧
      ∀ n ∈ d.denominators, n.valueAt (Quantity.valueAt (placeAll f ratio ds) ratio) ≠ 0 := by
  cases h with
  | cons hfree hnew hproper h =>
      have hknown (l : Label) (hl : l ∈ free ∨ l ∈ ds.map Definition.point) :
          placeAll f ratio ds l = placeAll f ratio (d :: ds) l :=
        (placeAll_cons_of_known hfree hnew hl).symm
      obtain ⟨hd, hds⟩ := List.forall_mem_cons.1 hne
      refine ⟨fun e he n hn => ?_, fun n hn => ?_⟩
      · rw [Expr.valueAt_congr ((h.isProper he).reads.2 n hn) hknown]
        exact hds e he n hn
      · rw [Expr.valueAt_congr (hproper.reads.2 n hn) hknown]
        exact hd n hn

/-- Coordinates are regular in those of the free points and in the free ratios, if no denominator is zero
at the start. -/
theorem IsOrdered.isRational_placeAll (h : IsOrdered free ds)
    (hx : ∀ l, IsRational fun t => (f t l).1) (hy : ∀ l, IsRational fun t => (f t l).2)
    (hratio : ∀ k, IsRational fun t => ratio t k)
    (hne : ∀ e ∈ ds, ∀ n ∈ e.denominators,
      n.valueAt (Quantity.valueAt (placeAll (f 0) (ratio 0) ds) (ratio 0)) ≠ 0) (l : Label) :
    (IsRational fun t => (placeAll (f t) (ratio t) ds l).1) ∧
      IsRational fun t => (placeAll (f t) (ratio t) ds l).2 := by
  induction ds generalizing l with
  | nil => exact ⟨hx l, hy l⟩
  | cons d ds ih =>
      obtain ⟨hds, hd⟩ := h.denominators_of_cons hne
      cases h with
      | cons hfree hnew hproper h =>
          have hbefore := ih h hds
          have hν := Quantity.isRational_valueAt (fun l => (hbefore l).1) (fun l => (hbefore l).2) hratio
          have hpoint := Rule.isRational_pointAt hν (fun l => (hbefore l).1) (fun l => (hbefore l).2)
            (hproper.isDefined _ hd)
          unfold placeAll
          by_cases hl : l = d.point
          · subst hl
            simpa only [Function.update_self] using hpoint
          · simpa only [Function.update_of_ne hl] using hbefore l

end Placements

/-- The value on the way from one to another, of which a part is gone. -/
def way (x y t : ℚ) : ℚ := x + t * (y - x)

theorem isRational_way (x y : ℚ) : IsRational (way x y) :=
  (isRational_const x).add (isRational_id.mul (isRational_const (y - x)))

theorem way_zero (x y : ℚ) : way x y 0 = x := by
  unfold way
  ring

theorem way_one (x y : ℚ) : way x y 1 = y := by
  unfold way
  ring

/-- Free ratios on the way give canonical ratios on the way. -/
theorem ratioOf_way (r s : Label → ℚ) (t : ℚ) (ds : List Definition) (k : Quantity) :
    ratioOf (fun l => way (r l) (s l) t) ds k = way (ratioOf r ds k) (ratioOf s ds k) t := by
  induction ds with
  | nil =>
      unfold ratioOf way
      ring
  | cons d ds ih =>
      unfold ratioOf
      split
      next o _ =>
        split
        · unfold way
          ring
        · exact ih
      next => exact ih

/-- A polynomial along the way from one assignment to another. -/
noncomputable def alongWay (σ τ : Variable → ℚ) (q : Polynomial) : ℚ[X] :=
  q.valueAt fun v => .C (σ v) + .X * .C (τ v - σ v)

theorem eval_alongWay (σ τ : Variable → ℚ) (q : Polynomial) (t : ℚ) :
    (alongWay σ τ q).eval t = q.valueAt fun v => way (σ v) (τ v) t := by
  unfold alongWay Polynomial.valueAt
  rw [← Polynomial.coe_aeval_eq_eval]
  refine (MvPolynomial.comp_aeval_apply _ (Polynomial.aeval t) _).trans ?_
  simp [way]

theorem exists_valueAt_ne_zero {q : Polynomial} (h : q ≠ 0) :
    ∃ σ : Variable → ℚ, q.valueAt σ ≠ 0 := by
  by_contra hzero
  push Not at hzero
  refine h (Polynomial.toMv_eq_zero.1 (MvPolynomial.funext fun σ => ?_))
  rw [map_zero, ← hzero σ, Polynomial.valueAt, MvPolynomial.aeval_eq_eval]

/-- From any assignment there is a way on which a polynomial that is not zero does not stay zero. -/
theorem exists_alongWay_ne_zero (σ : Variable → ℚ) {q : Polynomial} (h : q ≠ 0) :
    ∃ τ, alongWay σ τ q ≠ 0 := by
  obtain ⟨τ, hτ⟩ := exists_valueAt_ne_zero h
  refine ⟨τ, fun hzero => hτ ?_⟩
  have hone := eval_alongWay σ τ q 1
  simp only [way_one] at hone
  rw [← hone, hzero, Polynomial.eval_zero]

/-- Away from finitely many values, regular functions that are not zero at the start stay so, and a
polynomial that is not zero does not vanish. -/
theorem exists_forall_ne_zero (gs : List (ℚ → ℚ)) (hregular : ∀ g ∈ gs, IsRational g)
    (hstart : ∀ g ∈ gs, g 0 ≠ 0) {a : ℚ[X]} (ha : a ≠ 0) :
    ∃ t, a.eval t ≠ 0 ∧ ∀ g ∈ gs, g t ≠ 0 := by
  have hfinite : ({t | a.eval t = 0} ∪ ⋃ g ∈ gs, {t | g t = 0}).Finite :=
    (finite_zeros ha).union
      (gs.finite_toSet.biUnion fun g hg => (hregular g hg).finite_zeros (hstart g hg))
  obtain ⟨t, ht⟩ := hfinite.infinite_compl.nonempty
  refine ⟨t, fun hzero => ht (.inl hzero), fun g hg hzero => ht (.inr ?_)⟩
  exact Set.mem_biUnion hg hzero

namespace Context

variable {c : Context} {free free' : Label → ℚ × ℚ} {ratios ratios' : Label → ℚ}

/-- Places on the way from one to another. -/
def freeWay (free free' : Label → ℚ × ℚ) (t : ℚ) (l : Label) : ℚ × ℚ :=
  (way (free l).1 (free' l).1 t, way (free l).2 (free' l).2 t)

/-- Free ratios on the way from one to another. -/
def ratioWay (ratios ratios' : Label → ℚ) (t : ℚ) (l : Label) : ℚ := way (ratios l) (ratios' l) t

/-- From a valid placement the way to any other one has a valid placement at which a polynomial does not
vanish. -/
theorem IsValidAt.exists_way (hc : c.IsCoherent) (h : c.IsValidAt free ratios)
    (free' : Label → ℚ × ℚ) (ratios' : Label → ℚ) {a : ℚ[X]} (ha : a ≠ 0) :
    ∃ t, a.eval t ≠ 0 ∧ c.IsValidAt (freeWay free free' t) (ratioWay ratios ratios' t) := by
  have hstart : freeWay free free' 0 = free ∧ ratioWay ratios ratios' 0 = ratios := by
    refine ⟨funext fun l => ?_, funext fun l => way_zero _ _⟩
    exact Prod.ext (way_zero _ _) (way_zero _ _)
  have hratio (k : Quantity) : IsRational fun t => c.ratio (ratioWay ratios ratios' t) k := by
    unfold Context.ratio ratioWay
    simp only [ratioOf_way]
    exact isRational_way _ _
  have h0 : c.IsValidAt (freeWay free free' 0) (ratioWay ratios ratios' 0) := by
    rwa [hstart.1, hstart.2]
  have hplace := hc.ordered.isRational_placeAll (fun l => isRational_way _ _)
    (fun l => isRational_way _ _) hratio h0
  have hν := Quantity.isRational_valueAt (fun l => (hplace l).1) (fun l => (hplace l).2) hratio
  have hvalue {g : ℚ → ℚ} (hg : g ∈ (c.definitions.flatMap Definition.denominators).map fun e t =>
      e.valueAt (Quantity.valueAt (c.place (freeWay free free' t) (ratioWay ratios ratios' t))
        (c.ratio (ratioWay ratios ratios' t)))) : IsRational g ∧ g 0 ≠ 0 := by
    obtain ⟨e, he, rfl⟩ := List.mem_map.1 hg
    obtain ⟨d, hd, he⟩ := List.mem_flatMap.1 he
    exact ⟨Expr.isRational_valueAt hν ((hc.ordered.isProper hd).denominators _ e he), h0 d hd e he⟩
  obtain ⟨t, ht, hne⟩ :=
    exists_forall_ne_zero _ (fun g hg => (hvalue hg).1) (fun g hg => (hvalue hg).2) ha
  refine ⟨t, ht, fun d hd e he => ?_⟩
  exact hne _ (List.mem_map_of_mem (List.mem_flatMap.2 ⟨d, hd, he⟩))

end Context

end Planimetry.Area
