import Planimetry.Variable

/-! Geometric quantities of labelled points: signed areas, Pythagoras differences, and ratios of
parallel segments. -/

namespace Planimetry.Area

inductive Quantity where
  | area (a b c : Label)
  | pythagoras (a b c : Label)
  | ratio (a b c d : Label)
  deriving DecidableEq, Repr

namespace Quantity

/-- The letter that stands for the kind of quantity. -/
def letter : Quantity → String
  | .area .. => "S"
  | .pythagoras .. => "P"
  | .ratio .. => "R"

def labels : Quantity → List Label
  | .area a b c => [a, b, c]
  | .pythagoras a b c => [a, b, c]
  | .ratio a b c d => [a, b, c, d]

def mentions (q : Quantity) (p : Label) : Bool := q.labels.contains p

def relabel (f : Label → Label) : Quantity → Quantity
  | .area a b c => .area (f a) (f b) (f c)
  | .pythagoras a b c => .pythagoras (f a) (f b) (f c)
  | .ratio a b c d => .ratio (f a) (f b) (f c) (f d)

def text (q : Quantity) : String := q.letter ++ "[" ++ ",".intercalate q.labels ++ "]"

/-- The place of the letter in the alphabet, among the three. -/
def rank : Quantity → Nat
  | .pythagoras .. => 0
  | .ratio .. => 1
  | .area .. => 2

/-- By letter, then by labels. -/
def compare : Quantity → Quantity → Ordering := compareLex (compareOn rank) (compareOn labels)

instance : Ord Quantity := ⟨Quantity.compare⟩

instance : Std.TransOrd Quantity :=
  inferInstanceAs (Std.TransCmp (compareLex (compareOn rank) (compareOn labels)))

theorem eq_of_rank_eq {q r : Quantity} (h : q.rank = r.rank) (hl : q.labels = r.labels) :
    q = r := by
  cases q <;> cases r <;> simp_all [rank, labels]

instance : Std.LawfulEqOrd Quantity where
  compare_self {_} := Ordering.then_eq_eq.2 ⟨Std.ReflCmp.compare_self, Std.ReflCmp.compare_self⟩
  eq_of_compare {q r} h := by
    have h' := Ordering.then_eq_eq.1 h
    exact eq_of_rank_eq (Std.LawfulEqOrd.eq_of_compare h'.1) (Std.LawfulEqOrd.eq_of_compare h'.2)

end Quantity
end Planimetry.Area
