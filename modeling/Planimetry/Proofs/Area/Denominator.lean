import Planimetry.Proofs.Area.Orientation

/-! What a normal form leaves out: the denominator of the single fraction, which contains no fraction, and is
nowhere zero where the expression is defined. -/

namespace Planimetry.Area

variable {ν : Quantity → ℚ}

namespace Expr

variable {P : Quantity → Prop} {e : Expr} {f : Option Expr} {s : Expansion} {x : ℚ}

/-- The denominator of the single fraction; where there is none, it is one. -/
def denominator (e : Expr) : Expr :=
  match e.singleFraction with
  | .div _ d => d
  | _ => .one

theorem denominator_of_ne_div (h : ∀ n d, e.singleFraction ≠ .div n d) : e.denominator = .one := by
  unfold denominator
  split
  next n d heq => exact absurd heq (h n d)
  next => rfl

theorem denominator_eq (e : Expr) : e.denominator = e.split.2.getD .one := by
  rcases singleFraction_eq e with ⟨heq, hone⟩ | heq
  · rw [denominator_of_ne_div (heq ▸ split_ne_div e), hone]
  · unfold denominator
    rw [heq]

/-- The denominator contains no fraction. -/
theorem Over.denominator (he : e.Over P) : e.denominator.IsPlain P := by
  rw [denominator_eq]
  cases hd : e.split.2 with
  | none => trivial
  | some d => exact he.split.2 d hd

theorem DenotesOption.getD (hf : DenotesOption ν f x) : (f.getD .one).Denotes ν x := by
  cases f with
  | none =>
      obtain rfl : x = 1 := hf
      exact denotes_one
  | some e => exact hf

/-- The normal form has the value of the expression times the denominator, which is not zero. -/
theorem Denotes.mul_denominator (hν : RespectsOrientation ν) (he : e.Denotes ν x)
    (h : e.normalForm = .ok s) :
    e.denominator.valueAt ν ≠ 0 ∧ x * e.denominator.valueAt ν = s.valueAt ν := by
  obtain ⟨y, z, hy, hz, hne, rfl⟩ := he.split
  have hdenominator : e.denominator.valueAt ν = z := by
    rw [denominator_eq]
    exact hz.getD.2
  have hnumerator : s.valueAt ν = y := by
    rw [← numerator_eq] at hy
    exact hy.rightAssociative.expand hν h
  rw [hdenominator, hnumerator]
  exact ⟨hne, div_mul_cancel₀ y hne⟩

/-- A regular expression has a normal form, which vanishes exactly where the expression does. The denominator that
it leaves out contains no fraction; where the expression is defined, it is not zero, and the normal form has the
value of the expression times it. -/
theorem decides_normalForm (e : Expr) (he : e.IsRegular) :
    ∃ s, e.normalForm = .ok s ∧ e.denominator.IsPlain Quantity.IsRegular ∧
      ∀ ν, RespectsOrientation ν → e.IsDefined ν →
        e.denominator.valueAt ν ≠ 0 ∧ e.valueAt ν * e.denominator.valueAt ν = s.valueAt ν ∧
          (e.valueAt ν = 0 ↔ s.valueAt ν = 0) := by
  obtain ⟨s, hs⟩ := he.exists_normalForm
  refine ⟨s, hs, he.denominator, ?_⟩
  intro ν hν hdefined
  obtain ⟨hne, hvalue⟩ := (denotes_self hdefined).mul_denominator hν hs
  refine ⟨hne, hvalue, ?_⟩
  rw [← hvalue, mul_eq_zero]
  exact (or_iff_left hne).symm

end Expr

/-- A fraction of fractions and a fraction by a ratio. -/
def nestedQuotient : Expr :=
  .add (.div (.div (.atom (.area "A" "B" "C")) (.atom (.pythagoras "A" "B" "A")))
    (.div (.atom (.area "B" "D" "A")) (.number 2)))
    (.neg (.div .one (.atom (.ratio "A" "B" "D" "C"))))

theorem decides_nestedQuotient :
    nestedQuotient.IsRegular ∧ nestedQuotient.IsDefined (Quantity.ratioAt fun _ => 2) ∧
    ∃ s, nestedQuotient.normalForm = .ok s ∧ nestedQuotient.denominator.IsPlain Quantity.IsRegular ∧
      nestedQuotient.denominator.valueAt (Quantity.ratioAt fun _ => 2) ≠ 0 ∧
      nestedQuotient.valueAt (Quantity.ratioAt fun _ => 2) *
        nestedQuotient.denominator.valueAt (Quantity.ratioAt fun _ => 2) =
          s.valueAt (Quantity.ratioAt fun _ => 2) ∧
      (nestedQuotient.valueAt (Quantity.ratioAt fun _ => 2) = 0 ↔
        s.valueAt (Quantity.ratioAt fun _ => 2) = 0) := by
  have hregular : nestedQuotient.IsRegular := by
    have hends : ("D" : Label) ≠ "C" := by decide
    exact ⟨⟨⟨trivial, trivial⟩, trivial, trivial⟩, trivial, hends⟩
  have hdefined : nestedQuotient.IsDefined (Quantity.ratioAt fun _ => 2) := by
    refine ⟨⟨⟨trivial, trivial, ?_⟩, ⟨trivial, trivial, ?_⟩, ?_⟩, trivial, trivial, ?_⟩ <;> decide +kernel
  obtain ⟨s, hs, hplain, hvalues⟩ := Expr.decides_normalForm nestedQuotient hregular
  exact ⟨hregular, hdefined, s, hs, hplain,
    hvalues _ (Quantity.respectsOrientation_ratioAt _) hdefined⟩

end Planimetry.Area
