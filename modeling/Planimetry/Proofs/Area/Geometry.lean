import Mathlib.Algebra.BigOperators.Ring.List
import Mathlib.Tactic.LinearCombination
import Planimetry.Area.Elimination
import Planimetry.Proofs.Area.Reading
import Planimetry.Proofs.Figure.Condition

/-! Quantities of placed points, and the elimination lemmas for points that stand where their definitions
put them. -/

namespace Planimetry.Area

def signedArea (a b c : ℚ × ℚ) : ℚ := ((b.1 - a.1) * (c.2 - a.2) - (b.2 - a.2) * (c.1 - a.1)) / 2

def squareDistance (a b : ℚ × ℚ) : ℚ := (b.1 - a.1) ^ 2 + (b.2 - a.2) ^ 2

def pythagorasDifference (a b c : ℚ × ℚ) : ℚ :=
  squareDistance a b + squareDistance c b - squareDistance a c

namespace Quantity

/-- A ratio that orientation does not change. -/
def IsCanonical (q : Quantity) : Prop := q.orient = .ok ⟨1, some q⟩

/-- The value of a ratio where canonical ratios have values. -/
def ratioAt (ratio : Quantity → ℚ) (q : Quantity) : ℚ :=
  match q.orient with
  | .ok o => o.valueAt ratio
  | .error _ => 0

/-- The value of a quantity where points are placed and canonical ratios have values. -/
def valueAt (place : Label → ℚ × ℚ) (ratio : Quantity → ℚ) : Quantity → ℚ
  | .area a b c => signedArea (place a) (place b) (place c)
  | .pythagoras a b c => pythagorasDifference (place a) (place b) (place c)
  | .ratio a b c d => ratioAt ratio (.ratio a b c d)

variable {ratio : Quantity → ℚ} {a b c d : Label} {q : Quantity} {o : Oriented}

theorem ratioAt_eq (h : q.orient = .ok o) : ratioAt ratio q = o.valueAt ratio := by
  unfold ratioAt
  rw [h]

theorem ratioAt_of_isCanonical (h : q.IsCanonical) : ratioAt ratio q = ratio q := by
  rw [ratioAt_eq h]
  exact one_mul _

theorem isCanonical_ratio (hab : a < b) (hcd : c < d) (hne : (a, b) ≠ (c, d)) :
    IsCanonical (.ratio a b c d) := by
  refine ((if_neg (String.ne_of_lt hcd)).trans (if_neg (String.ne_of_lt hab))).trans
    (congr_arg Except.ok ?_)
  unfold orientRatio
  simp only [if_neg (String.lt_asymm hab), if_neg (String.lt_asymm hcd), if_neg hne, mul_one]

/-- A ratio with its ends in order is canonical, and has the sign of the reorderings in front. -/
theorem orientRatio_eq_some (hab : a ≠ b) (hcd : c ≠ d) {k : Quantity}
    (hk : (orientRatio a b c d).quantity = some k) :
    ((orientRatio a b c d).factor = 1 ∨ (orientRatio a b c d).factor = -1) ∧ k.IsCanonical ∧
      ∃ s t u v, k = .ratio s t u v ∧ (s = a ∧ t = b ∨ s = b ∧ t = a) := by
  unfold orientRatio at hk ⊢
  by_cases hba : b < a <;> by_cases hdc : d < c <;>
    simp only [hba, hdc, if_true, if_false] at hk ⊢ <;> split at hk
  all_goals cases hk
  · next hne =>
      rw [if_neg hne]
      exact ⟨by norm_num, isCanonical_ratio hba hdc hne, _, _, _, _, rfl, .inr ⟨rfl, rfl⟩⟩
  · next hne =>
      rw [if_neg hne]
      exact ⟨by norm_num, isCanonical_ratio hba ((lt_or_lt_of_ne hcd).resolve_right hdc) hne,
        _, _, _, _, rfl, .inr ⟨rfl, rfl⟩⟩
  · next hne =>
      rw [if_neg hne]
      exact ⟨by norm_num, isCanonical_ratio ((lt_or_lt_of_ne hab).resolve_right hba) hdc hne,
        _, _, _, _, rfl, .inl ⟨rfl, rfl⟩⟩
  · next hne =>
      rw [if_neg hne]
      exact ⟨by norm_num, isCanonical_ratio ((lt_or_lt_of_ne hab).resolve_right hba)
        ((lt_or_lt_of_ne hcd).resolve_right hdc) hne, _, _, _, _, rfl, .inl ⟨rfl, rfl⟩⟩

/-- The orientation of a ratio is a sign and, unless it is a number, a canonical ratio. -/
theorem orient_ratio (h : orient (.ratio a b c d) = .ok o) :
    ∀ k ∈ o.quantity, (o.factor = 1 ∨ o.factor = -1) ∧ k.IsCanonical ∧
      ∃ s t u v, k = .ratio s t u v ∧ (s = a ∧ t = b ∨ s = b ∧ t = a) := by
  intro k hk
  unfold orient at h
  dsimp only at h
  split at h
  next => cases h
  next hcd =>
    split at h
    next =>
      cases h
      cases hk
    next hab =>
      cases h
      exact orientRatio_eq_some hab hcd hk

end Quantity

theorem respectsOrientation_valueAt (place : Label → ℚ × ℚ) (ratio : Quantity → ℚ) :
    RespectsOrientation (Quantity.valueAt place ratio) := by
  intro q o h
  cases q with
  | area a b c =>
      cases h
      unfold Quantity.valueAt Quantity.orientArea Oriented.valueAt
      by_cases hnodup : [a, b, c].Nodup
      · rw [if_neg (not_not.2 hnodup)]
        dsimp only
        split_ifs <;> simp only [Option.elim_some, signedArea] <;> ring
      · rw [if_pos hnodup]
        have hsame : a = b ∨ a = c ∨ b = c := by
          by_contra hne
          push Not at hne
          exact hnodup (by simpa [and_assoc] using hne)
        rcases hsame with rfl | rfl | rfl <;> unfold signedArea <;> ring
  | pythagoras a b c =>
      cases h
      unfold Quantity.valueAt Quantity.orientPythagoras Oriented.valueAt
      split_ifs with hzero hsame
      · rw [Bool.or_eq_true, decide_eq_true_iff, decide_eq_true_iff] at hzero
        rcases hzero with rfl | rfl <;> unfold pythagorasDifference squareDistance <;> ring
      · rw [Bool.and_eq_true, decide_eq_true_iff] at hsame
        obtain rfl := hsame.1
        simp only [Option.elim_some, pythagorasDifference, squareDistance]
        ring
      · simp only [Option.elim_some, pythagorasDifference, squareDistance]
        ring
      · simp only [Option.elim_some]
        ring
  | ratio a b c d =>
      refine (Quantity.ratioAt_eq h).trans ?_
      unfold Oriented.valueAt
      cases hk : o.quantity with
      | none => rfl
      | some k =>
          obtain ⟨-, hcanonical, s, t, u, v, rfl, -⟩ := Quantity.orient_ratio h k hk
          rw [Option.elim_some, Option.elim_some]
          exact congr_arg _ (Quantity.ratioAt_of_isCanonical hcanonical).symm

/-- Areas and Pythagoras differences have the values of a placement; those of ratios are open. -/
structure IsGeometric (place : Label → ℚ × ℚ) (ν : Quantity → ℚ) : Prop where
  area : ∀ a b c, ν (.area a b c) = signedArea (place a) (place b) (place c)
  pythagoras : ∀ a b c, ν (.pythagoras a b c) = pythagorasDifference (place a) (place b) (place c)

theorem isGeometric_valueAt (place : Label → ℚ × ℚ) (ratio : Quantity → ℚ) :
    IsGeometric place (Quantity.valueAt place ratio) := ⟨fun _ _ _ => rfl, fun _ _ _ => rfl⟩

section Weights

variable {ν : Quantity → ℚ} {place : Label → ℚ × ℚ}

/-- The sum of what weights contribute. -/
def weightedSum (ν : Quantity → ℚ) (weights : List (Label × Expr)) (f : Label → ℚ) : ℚ :=
  (weights.map fun w => w.2.valueAt ν * f w.1).sum

theorem weightedSum_cons (w : Label × Expr) (ws : List (Label × Expr)) (f : Label → ℚ) :
    weightedSum ν (w :: ws) f = w.2.valueAt ν * f w.1 + weightedSum ν ws f := by
  unfold weightedSum
  rw [List.map_cons, List.sum_cons]

theorem weightedSum_add (ws : List (Label × Expr)) (f g : Label → ℚ) :
    weightedSum ν ws (fun l => f l + g l) = weightedSum ν ws f + weightedSum ν ws g := by
  induction ws with
  | nil => exact (add_zero 0).symm
  | cons w ws ih =>
      rw [weightedSum_cons, weightedSum_cons, weightedSum_cons, ih]
      ring

theorem weightedSum_mul (ws : List (Label × Expr)) (c : ℚ) (f : Label → ℚ) :
    weightedSum ν ws (fun l => c * f l) = c * weightedSum ν ws f := by
  induction ws with
  | nil => exact (mul_zero c).symm
  | cons w ws ih =>
      rw [weightedSum_cons, weightedSum_cons, ih]
      ring

/-- A weighted sum of values that are affine in the coordinates is affine in the weighted sums of
these. -/
theorem weightedSum_affine (ws : List (Label × Expr)) (r s t : ℚ) :
    weightedSum ν ws (fun l => r * (place l).1 + s * (place l).2 + t) =
      r * weightedSum ν ws (fun l => (place l).1) + s * weightedSum ν ws (fun l => (place l).2) +
        t * weightedSum ν ws fun _ => 1 := by
  have ht : (fun l : Label => r * (place l).1 + s * (place l).2 + t) =
      fun l => r * (place l).1 + s * (place l).2 + t * 1 := by
    funext l
    rw [mul_one]
  rw [ht, weightedSum_add, weightedSum_add, weightedSum_mul, weightedSum_mul, weightedSum_mul]

/-- The products of the weights of different points with the square distances of these. -/
def spread (ν : Quantity → ℚ) (place : Label → ℚ × ℚ) (weights : List (Label × Expr)) : ℚ :=
  ((pairs weights).map fun w =>
    w.1.2.valueAt ν * w.2.2.valueAt ν * squareDistance (place w.1.1) (place w.2.1)).sum

/-- The weighted sum of squares exceeds the square of the weighted sum by the spread. -/
theorem weightedSum_square (ν : Quantity → ℚ) (place : Label → ℚ × ℚ) (ws : List (Label × Expr)) :
    weightedSum ν ws (fun _ => 1) *
        weightedSum ν ws (fun l => (place l).1 ^ 2 + (place l).2 ^ 2) =
      weightedSum ν ws (fun l => (place l).1) ^ 2 + weightedSum ν ws (fun l => (place l).2) ^ 2 +
        spread ν place ws := by
  induction ws with
  | nil =>
      unfold spread weightedSum pairs
      norm_num
  | cons w ws ih =>
      have hhead : ((ws.map fun v => (w, v)).map fun v => v.1.2.valueAt ν * v.2.2.valueAt ν *
          squareDistance (place v.1.1) (place v.2.1)).sum =
          w.2.valueAt ν * weightedSum ν ws fun l => squareDistance (place w.1) (place l) := by
        unfold weightedSum
        rw [List.map_map, ← List.sum_map_mul_left]
        exact congr_arg List.sum (List.map_congr_left fun v _ => mul_assoc _ _ _)
      have hdistance : (weightedSum ν ws fun l => squareDistance (place w.1) (place l)) =
          weightedSum ν ws (fun l => (place l).1 ^ 2 + (place l).2 ^ 2) +
            (-2 * (place w.1).1 * weightedSum ν ws (fun l => (place l).1) +
              -2 * (place w.1).2 * weightedSum ν ws (fun l => (place l).2) +
              ((place w.1).1 ^ 2 + (place w.1).2 ^ 2) * weightedSum ν ws fun _ => 1) := by
        rw [← weightedSum_affine, ← weightedSum_add]
        refine congr_arg (weightedSum ν ws) (funext fun l => ?_)
        unfold squareDistance
        ring
      have hspread : spread ν place (w :: ws) =
          w.2.valueAt ν * weightedSum ν ws (fun l => squareDistance (place w.1) (place l)) +
            spread ν place ws := by
        unfold spread
        rw [show pairs (w :: ws) = ws.map (fun v => (w, v)) ++ pairs ws from rfl, List.map_append,
          List.sum_append, hhead]
      rw [hspread, hdistance]
      simp only [weightedSum_cons]
      linear_combination ih

end Weights

namespace Rule

variable {ν : Quantity → ℚ} {place : Label → ℚ × ℚ}

/-- The expressions of a rule are defined, and its weights add up to one. -/
def IsDefined (ν : Quantity → ℚ) : Rule → Prop
  | .affine weights => (∀ w ∈ weights, w.2.IsDefined ν) ∧ weightedSum ν weights (fun _ => 1) = 1
  | .turn _ _ _ r => r.IsDefined ν

/-- Where a rule puts its point. -/
def pointAt (ν : Quantity → ℚ) (place : Label → ℚ × ℚ) : Rule → ℚ × ℚ
  | .affine weights =>
    (weightedSum ν weights fun l => (place l).1, weightedSum ν weights fun l => (place l).2)
  | .turn p u v r =>
    ((place p).1 - r.valueAt ν * ((place v).2 - (place u).2),
      (place p).2 + r.valueAt ν * ((place v).1 - (place u).1))

theorem denotes_total {es : List Expr} (h : ∀ e ∈ es, e.IsDefined ν) :
    (total es).Denotes ν (es.map (Expr.valueAt ν)).sum := by
  cases es with
  | nil => exact Expr.denotes_zero
  | cons e es =>
      unfold total
      induction es generalizing e with
      | nil =>
          rw [List.map_singleton, List.sum_singleton]
          exact Expr.denotes_self (h e List.mem_cons_self)
      | cons f es ih =>
          obtain ⟨he, hrest⟩ := List.forall_mem_cons.1 h
          rw [List.map_cons, List.sum_cons]
          exact (Expr.denotes_self he).add (ih f hrest)

theorem denotes_average {weights : List (Label × Expr)} (quantity : Label → Quantity)
    (hweights : ∀ w ∈ weights, w.2.IsDefined ν) :
    (average weights fun l => .atom (quantity l)).Denotes ν
      (weightedSum ν weights fun l => ν (quantity l)) := by
  refine (denotes_total fun e he => ?_).of_eq ?_
  · obtain ⟨w, hw, rfl⟩ := List.mem_map.1 he
    exact ⟨hweights w hw, trivial⟩
  · rw [List.map_map]
    rfl

section Elimination

variable {r : Rule} {y : ℚ × ℚ} {a b c : Label}

theorem denotes_areaWith (hν : IsGeometric place ν) (hr : r.IsDefined ν) (hy : y = r.pointAt ν place) :
    (r.areaWith a b).Denotes ν (signedArea (place a) (place b) y) := by
  subst hy
  cases r with
  | affine weights =>
      refine (denotes_average (fun l => .area a b l) hr.1).of_eq ?_
      have haffine : (fun l => ν (.area a b l)) = fun l =>
          -((place b).2 - (place a).2) / 2 * (place l).1 +
            ((place b).1 - (place a).1) / 2 * (place l).2 +
            ((place a).1 * (place b).2 - (place a).2 * (place b).1) / 2 := by
        funext l
        rw [hν.area]
        unfold signedArea
        ring
      rw [haffine, weightedSum_affine, hr.2]
      unfold pointAt signedArea
      ring
  | turn p u v r =>
      refine (((Expr.denotes_atom _).sub (((Expr.denotes_number _).mul (Expr.denotes_self hr)).mul
        ((Expr.denotes_atom _).sub (Expr.denotes_atom _))))).of_eq ?_
      simp only [hν.area, hν.pythagoras, pythagorasDifference, squareDistance, signedArea, pointAt]
      ring

theorem denotes_pythagorasWith (hν : IsGeometric place ν) (hr : r.IsDefined ν)
    (hy : y = r.pointAt ν place) :
    (r.pythagorasWith a b).Denotes ν (pythagorasDifference (place a) (place b) y) := by
  subst hy
  cases r with
  | affine weights =>
      refine (denotes_average (fun l => .pythagoras a b l) hr.1).of_eq ?_
      have haffine : (fun l => ν (.pythagoras a b l)) = fun l =>
          2 * ((place a).1 - (place b).1) * (place l).1 +
            2 * ((place a).2 - (place b).2) * (place l).2 +
            (2 * (place b).1 * ((place b).1 - (place a).1) +
              2 * (place b).2 * ((place b).2 - (place a).2)) := by
        funext l
        rw [hν.pythagoras]
        unfold pythagorasDifference squareDistance
        ring
      rw [haffine, weightedSum_affine, hr.2]
      unfold pointAt pythagorasDifference squareDistance
      ring
  | turn p u v r =>
      refine (((Expr.denotes_atom _).add (((Expr.denotes_number _).mul (Expr.denotes_self hr)).mul
        ((Expr.denotes_atom _).sub (Expr.denotes_atom _))))).of_eq ?_
      simp only [hν.area, hν.pythagoras, pythagorasDifference, squareDistance, signedArea, pointAt]
      ring

theorem denotes_pythagorasAt (hν : IsGeometric place ν) (hr : r.IsDefined ν)
    (hy : y = r.pointAt ν place) :
    (r.pythagorasAt a c).Denotes ν (pythagorasDifference (place a) y (place c)) := by
  subst hy
  cases r with
  | affine weights =>
      have hvertex : (weightedSum ν weights fun l => ν (.pythagoras a l c)) =
          -2 * ((place a).1 + (place c).1) * weightedSum ν weights (fun l => (place l).1) +
            -2 * ((place a).2 + (place c).2) * weightedSum ν weights (fun l => (place l).2) +
            2 * ((place a).1 * (place c).1 + (place a).2 * (place c).2) * 1 +
            2 * weightedSum ν weights fun l => (place l).1 ^ 2 + (place l).2 ^ 2 := by
        rw [← hr.2, ← weightedSum_affine, ← weightedSum_mul, ← weightedSum_add]
        refine congr_arg _ (funext fun l => ?_)
        rw [hν.pythagoras]
        unfold pythagorasDifference squareDistance
        ring
      have hsquare := weightedSum_square ν place weights
      rw [hr.2, one_mul] at hsquare
      refine (denotes_total fun e he => ?_).of_eq ?_
      · rcases List.mem_append.1 he with he | he
        · obtain ⟨w, hw, rfl⟩ := List.mem_map.1 he
          exact ⟨hr.1 w hw, trivial⟩
        · obtain ⟨w, hw, rfl⟩ := List.mem_map.1 he
          obtain ⟨hfst, hsnd⟩ := mem_pairs hw
          exact ⟨⟨hr.1 _ hfst, hr.1 _ hsnd⟩, trivial⟩
      · have hpairs : (((pairs weights).map fun w =>
            Expr.neg (.mul (.mul w.1.2 w.2.2) (pythagoras w.1.1 w.2.1 w.1.1))).map
              (Expr.valueAt ν)).sum = -2 * spread ν place weights := by
          unfold spread
          rw [List.map_map, ← List.sum_map_mul_left]
          refine congr_arg List.sum (List.map_congr_left fun w _ => ?_)
          simp only [Function.comp_apply, Expr.valueAt, pythagoras, hν.pythagoras,
            pythagorasDifference, squareDistance]
          ring
        rw [List.map_append, List.sum_append, hpairs, List.map_map]
        refine (congr_arg (· + _) hvertex).trans ?_
        rw [hsquare]
        unfold pointAt pythagorasDifference squareDistance
        ring
  | turn p u v r =>
      have hr' := Expr.denotes_self hr
      refine (((Expr.denotes_atom _).sub (((Expr.denotes_number _).mul hr').mul
        (((Expr.denotes_atom _).add (Expr.denotes_atom _)).sub
          ((Expr.denotes_number _).mul (Expr.denotes_atom _))))).add
        ((hr'.mul hr').mul (Expr.denotes_atom _))).of_eq ?_
      simp only [hν.area, hν.pythagoras, pythagorasDifference, squareDistance, signedArea, pointAt]
      ring

end Elimination

end Rule

namespace Definition

variable {place : Label → ℚ × ℚ} {ratio : Quantity → ℚ} {d : Definition}

/-- The point of a definition stands where its rule puts it. -/
structure HoldsAt (place : Label → ℚ × ℚ) (ratio : Quantity → ℚ) (d : Definition) : Prop where
  isDefined : d.rule.IsDefined (Quantity.valueAt place ratio)
  point : place d.point = d.rule.pointAt (Quantity.valueAt place ratio) place

/-- A point stands where its rule puts it, whatever values the ratios have. -/
structure StandsAt (ν : Quantity → ℚ) (place : Label → ℚ × ℚ) (d : Definition) : Prop where
  isDefined : d.rule.IsDefined ν
  point : place d.point = d.rule.pointAt ν place

theorem HoldsAt.standsAt (hd : d.HoldsAt place ratio) : d.StandsAt (Quantity.valueAt place ratio) place :=
  ⟨hd.isDefined, hd.point⟩

variable {ν : Quantity → ℚ}

theorem StandsAt.denotes_area (hd : d.StandsAt ν place) (hν : IsGeometric place ν) {a b c : Label} {e : Expr}
    (h : d.area a b c = .ok e) : e.Denotes ν (ν (.area a b c)) := by
  have hwith (s t : Label) := Rule.denotes_areaWith (a := s) (b := t) hν hd.isDefined hd.point
  rw [hν.area]
  unfold Definition.area at h
  split at h
  next ha _ _ =>
    cases h
    rw [← eq_of_beq ha] at hwith
    refine (hwith b c).of_eq ?_
    unfold signedArea
    ring
  next _ hb _ =>
    cases h
    rw [← eq_of_beq hb] at hwith
    refine (hwith c a).of_eq ?_
    unfold signedArea
    ring
  next _ _ hc =>
    cases h
    rw [← eq_of_beq hc] at hwith
    exact hwith a b
  next => cases h
  next hab hac hbc hnone =>
    cases h
    refine Expr.denotes_zero.of_eq ?_
    have hsame : a = b ∨ a = c ∨ b = c := by
      cases ha : a == d.point <;> cases hb : b == d.point <;> cases hc : c == d.point
      · exact (hnone ha hb hc).elim
      · exact (hbc ha hb hc).elim
      · exact (hac ha hb hc).elim
      · exact .inr (.inr ((eq_of_beq hb).trans (eq_of_beq hc).symm))
      · exact (hab ha hb hc).elim
      · exact .inr (.inl ((eq_of_beq ha).trans (eq_of_beq hc).symm))
      · exact .inl ((eq_of_beq ha).trans (eq_of_beq hb).symm)
      · exact .inl ((eq_of_beq ha).trans (eq_of_beq hb).symm)
    rcases hsame with rfl | rfl | rfl <;> unfold signedArea <;> ring

theorem StandsAt.denotes_pythagoras (hd : d.StandsAt ν place) (hν : IsGeometric place ν) {a b c : Label}
    (hmentions : a = d.point ∨ b = d.point ∨ c = d.point) :
    (d.pythagoras a b c).Denotes ν (ν (.pythagoras a b c)) := by
  have hwith (s t : Label) := Rule.denotes_pythagorasWith (a := s) (b := t) hν hd.isDefined hd.point
  have hat (s t : Label) := Rule.denotes_pythagorasAt (a := s) (c := t) hν hd.isDefined hd.point
  rw [hν.pythagoras]
  unfold Definition.pythagoras
  split
  next hb =>
    split
    next hends =>
      refine Expr.denotes_zero.of_eq ?_
      rw [Bool.or_eq_true, decide_eq_true_iff, decide_eq_true_iff] at hends
      rcases hends with hends | hends <;> rw [hb, hends] <;>
        unfold pythagorasDifference squareDistance <;> ring
    next =>
      rw [← hb] at hat
      exact hat a c
  next hb =>
    split
    next hends =>
      rw [Bool.and_eq_true, decide_eq_true_iff, decide_eq_true_iff] at hends
      refine (hat b b).of_eq ?_
      rw [hends.1, hends.2]
      unfold pythagorasDifference squareDistance
      ring
    next =>
      split
      next hc =>
        rw [← hc] at hwith
        exact hwith a b
      next hc =>
        have ha : a = d.point := hmentions.resolve_right (not_or.2 ⟨hb, hc⟩)
        rw [← ha] at hwith
        refine (hwith c b).of_eq ?_
        unfold pythagorasDifference squareDistance
        ring

/-- The elimination lemmas keep the value of a quantity. -/
theorem StandsAt.denotes_eliminate (hd : d.StandsAt ν place) (hν : IsGeometric place ν) {q : Quantity}
    {e : Expr} (hmentions : q.mentions d.point = true) (h : d.eliminate q = .ok e) :
    e.Denotes ν (ν q) := by
  cases q with
  | area a b c => exact hd.denotes_area hν h
  | pythagoras a b c =>
      cases h
      refine hd.denotes_pythagoras hν ?_
      have hmem : d.point ∈ [a, b, c] := List.contains_iff_mem.1 hmentions
      rw [List.mem_cons, List.mem_cons, List.mem_singleton] at hmem
      exact hmem.imp Eq.symm (Or.imp Eq.symm Eq.symm)
  | ratio a b u v => cases h

end Definition

end Planimetry.Area
