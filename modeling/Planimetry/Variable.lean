/-! Unknowns of the polynomials: free parameters, dependent coordinates, and coordinates of roles. -/

namespace Planimetry

/-- The name of an object of a figure, or of the role that it plays in a condition. -/
abbrev Label := String

inductive Axis where
  | x
  | y
  deriving DecidableEq, Repr, Inhabited

/-- Free variables parametrise a figure, dependent ones are tied by its conditions, and a
placeholder stands for a coordinate of whichever point will play a role. -/
inductive Variable where
  | free (index : Int)
  | dependent (index : Int)
  | placeholder (role : Label) (axis : Axis)
  deriving DecidableEq, Repr, Inhabited

namespace Axis

def compare : Axis → Axis → Ordering
  | .x, .x => .eq
  | .x, .y => .lt
  | .y, .x => .gt
  | .y, .y => .eq

instance : Ord Axis := ⟨Axis.compare⟩

instance : Std.LawfulEqOrd Axis where
  eq_of_compare {a b} h := by
    cases a <;> cases b <;> first | rfl | exact nomatch h
  compare_self {a} := by cases a <;> rfl

instance : Std.TransOrd Axis where
  eq_swap {a b} := by cases a <;> cases b <;> rfl
  isLE_trans {a b c} := by cases a <;> cases b <;> cases c <;> decide

def name : Axis → String
  | .x => "x"
  | .y => "y"

end Axis

namespace Variable

def isFree : Variable → Bool
  | .free _ => true
  | _ => false

def isDependent : Variable → Bool
  | .dependent _ => true
  | _ => false

/-- Free variables come first, then dependent ones, each by index, then placeholders. -/
def compare : Variable → Variable → Ordering
  | .free i, .free j => Ord.compare i j
  | .free _, _ => .lt
  | .dependent _, .free _ => .gt
  | .dependent i, .dependent j => Ord.compare i j
  | .dependent _, .placeholder .. => .lt
  | .placeholder r a, .placeholder s b => (Ord.compare r s).then (Ord.compare a b)
  | .placeholder .., _ => .gt

instance : Ord Variable := ⟨Variable.compare⟩

@[simp] theorem compare_free_free (i j : Int) :
    Ord.compare (free i) (free j) = Ord.compare i j := rfl

@[simp] theorem compare_free_dependent (i j : Int) :
    Ord.compare (free i) (dependent j) = .lt := rfl

@[simp] theorem compare_free_placeholder (i : Int) (r : Label) (a : Axis) :
    Ord.compare (free i) (placeholder r a) = .lt := rfl

@[simp] theorem compare_dependent_free (i j : Int) :
    Ord.compare (dependent i) (free j) = .gt := rfl

@[simp] theorem compare_dependent_dependent (i j : Int) :
    Ord.compare (dependent i) (dependent j) = Ord.compare i j := rfl

@[simp] theorem compare_dependent_placeholder (i : Int) (r : Label) (a : Axis) :
    Ord.compare (dependent i) (placeholder r a) = .lt := rfl

@[simp] theorem compare_placeholder_free (i : Int) (r : Label) (a : Axis) :
    Ord.compare (placeholder r a) (free i) = .gt := rfl

@[simp] theorem compare_placeholder_dependent (i : Int) (r : Label) (a : Axis) :
    Ord.compare (placeholder r a) (dependent i) = .gt := rfl

@[simp] theorem compare_placeholder_placeholder (r s : Label) (a b : Axis) :
    Ord.compare (placeholder r a) (placeholder s b) =
      compareLex (compareOn Prod.fst) (compareOn Prod.snd) (r, a) (s, b) := rfl

instance : Std.LawfulEqOrd Variable where
  eq_of_compare {a b} h := by
    cases a <;> cases b <;>
      simp_all [compareLex, compareOn, Ordering.then_eq_eq]
  compare_self {a} := by cases a <;> simp [compareLex, compareOn]

instance : Std.TransOrd Variable where
  eq_swap {a b} := by
    cases a <;> cases b <;> simp only [compare_free_free, compare_free_dependent,
      compare_free_placeholder, compare_dependent_free, compare_dependent_dependent,
      compare_dependent_placeholder, compare_placeholder_free, compare_placeholder_dependent,
      compare_placeholder_placeholder, Ordering.swap_lt, Ordering.swap_gt]
    all_goals exact Std.OrientedCmp.eq_swap
  isLE_trans {a b c} := by
    cases a <;> cases b <;> cases c <;> simp only [compare_free_free, compare_free_dependent,
      compare_free_placeholder, compare_dependent_free, compare_dependent_dependent,
      compare_dependent_placeholder, compare_placeholder_free, compare_placeholder_dependent,
      compare_placeholder_placeholder, Ordering.isLE_lt, Ordering.isLE_gt, Bool.false_eq_true,
      implies_true, false_implies]
    all_goals exact Std.TransCmp.isLE_trans

def text : Variable → String
  | .free i => "u" ++ toString i
  | .dependent i => "x" ++ toString i
  | .placeholder r a => a.name ++ r

/-- The text with an axis kept apart from its role, so that the variable can be told from it. -/
def written : Variable → String
  | .placeholder r a => a.name ++ "@" ++ r
  | v => v.text

end Variable
end Planimetry
