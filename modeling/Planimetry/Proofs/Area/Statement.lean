import Planimetry.Area.Proof
import Planimetry.Proofs.Area.Geometry

/-! Statements as expressions, which vanish exactly where the conditions of the statements hold. -/

namespace Planimetry

namespace Template

variable (σ : Variable → ℚ) (a b c : Label)

theorem valueAt_signedArea : (signedArea a b c).valueAt σ =
    Area.signedArea (roleValue σ a) (roleValue σ b) (roleValue σ c) := by
  unfold signedArea Area.signedArea
  rw [Polynomial.valueAt_scale, valueAt_collinear]
  simp only [eq_ratCast, Rat.cast_id]
  ring

theorem valueAt_pythagorasDifference : (pythagorasDifference a b c).valueAt σ =
    Area.pythagorasDifference (roleValue σ a) (roleValue σ b) (roleValue σ c) := by
  unfold pythagorasDifference Area.pythagorasDifference Area.squareDistance
  rw [Polynomial.valueAt_sub, Polynomial.valueAt_add]
  simp only [valueAt_squareDistance]
  ring

end Template

namespace Area

/-- All roles of the conditions of statements are played. -/
theorem mem_roles_condition (r : Relation) :
    ∀ role ∈ r.condition.template.roles, role ∈ r.condition.roles.map Prod.fst := by
  cases r with
  | trivial => exact fun _ h => nomatch h
  | identical a b =>
      exact (by decide +kernel :
        ∀ role ∈ (Template.identicalPoints "A" "B").roles, role ∈ ["A", "B"])
  | collinear a b c =>
      exact (by decide +kernel :
        ∀ role ∈ (Template.collinear "A" "B" "C").roles, role ∈ ["A", "B", "C"])
  | parallel a b c d =>
      exact (by decide +kernel :
        ∀ role ∈ (Template.parallel "A" "B" "C" "D").roles, role ∈ ["A", "B", "C", "D"])
  | perpendicular a b c d =>
      exact (by decide +kernel :
        ∀ role ∈ (Template.perpendicular "A" "B" "C" "D").roles, role ∈ ["A", "B", "C", "D"])
  | congruent a b c d =>
      exact (by decide +kernel :
        ∀ role ∈ (Template.congruentSegments "A" "B" "C" "D").roles, role ∈ ["A", "B", "C", "D"])
  | concyclic a b c d =>
      exact (by decide +kernel :
        ∀ role ∈ (Template.concyclic "A" "B" "C" "D").roles, role ∈ ["A", "B", "C", "D"])

variable {place : Label → ℚ × ℚ} {ratio : Quantity → ℚ}

/-- The expression of a statement is defined everywhere, and vanishes exactly where the statement holds. -/
theorem ofRelation_eq_ok {r : Relation} {e : Expr} (h : Statement.ofRelation r = .ok e) :
    ∃ x, e.Denotes (Quantity.valueAt place ratio) x ∧ (x = 0 ↔ r.condition.HoldsAt place) := by
  have hholds : r.condition.HoldsAt place ↔ _ :=
    Condition.holdsAt_iff r.isPure_condition (mem_roles_condition r)
  have hmultiple {x y k : ℚ} (hk : k ≠ 0) (hy : y = k * x) : x = 0 ↔ y = 0 := by
    rw [hy, mul_eq_zero, or_iff_right hk]
  cases r with
  | trivial =>
      cases h
      exact ⟨0, Expr.denotes_zero, iff_of_true rfl (hholds.2 (Polynomial.valueAt_zero _))⟩
  | collinear a b c =>
      cases h
      refine ⟨_, Expr.denotes_atom _, (hmultiple two_ne_zero ?_).trans hholds.symm⟩
      simp only [Relation.condition, Template.valueAt_collinear, Template.roleValue,
        Template.located, List.lookup, String.reduceBEq, BEq.rfl, Option.map_some, Option.getD_some,
        Quantity.valueAt, signedArea]
      ring
  | parallel a b c d =>
      cases h
      refine ⟨_, (Expr.denotes_atom _).sub (Expr.denotes_atom _),
        (hmultiple two_ne_zero ?_).trans hholds.symm⟩
      simp only [Relation.condition, Template.valueAt_parallel, Template.roleValue,
        Template.located, List.lookup, String.reduceBEq, BEq.rfl, Option.map_some, Option.getD_some,
        Quantity.valueAt, signedArea]
      ring
  | perpendicular a b c d =>
      cases h
      have hk : (-1 / 2 : ℚ) ≠ 0 := by norm_num
      refine ⟨_, (Expr.denotes_atom _).sub (Expr.denotes_atom _),
        (hmultiple hk ?_).trans hholds.symm⟩
      simp only [Relation.condition, Template.valueAt_perpendicular, Template.roleValue,
        Template.located, List.lookup, String.reduceBEq, BEq.rfl, Option.map_some, Option.getD_some,
        Quantity.valueAt, pythagorasDifference, squareDistance]
      ring
  | congruent a b c d =>
      cases h
      have hk : (1 / 2 : ℚ) ≠ 0 := by norm_num
      refine ⟨_, (Expr.denotes_atom _).sub (Expr.denotes_atom _),
        (hmultiple hk ?_).trans hholds.symm⟩
      simp only [Relation.condition, Template.congruentSegments, Polynomial.valueAt_sub,
        Template.valueAt_squareDistance, Template.roleValue, Template.located, List.lookup,
        String.reduceBEq, BEq.rfl, Option.map_some, Option.getD_some, Quantity.valueAt,
        pythagorasDifference, squareDistance]
      ring
  | identical a b => cases h
  | concyclic a b c d => cases h

end Area
end Planimetry
