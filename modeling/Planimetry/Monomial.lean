import Planimetry.Sparse
import Planimetry.Variable

/-! Power products of variables in lexicographic order: each variable with its positive exponent. -/

namespace Planimetry

abbrev Monomial := Sparse Variable Nat

/-- A power of a rational number. The powers of zero, one and minus one take no multiplication, so
that their exponents may have any size. -/
def rationalPower (q : Rat) (n : Nat) : Rat :=
  if q = 1 then 1
  else if q = -1 then if n % 2 = 0 then 1 else -1
  else if q = 0 then if n = 0 then 1 else 0
  else q ^ n

theorem rational_one_pow (n : Nat) : (1 : Rat) ^ n = 1 := by
  induction n with
  | zero => exact Rat.pow_zero 1
  | succ n ih => rw [Rat.pow_succ, ih, Rat.mul_one]

theorem rational_neg_one_pow (n : Nat) : (-1 : Rat) ^ n = if n % 2 = 0 then 1 else -1 := by
  induction n with
  | zero => exact Rat.pow_zero (-1)
  | succ n ih =>
    rw [Rat.pow_succ, ih]
    rcases Nat.mod_two_eq_zero_or_one n with h | h
    · rw [if_pos h, if_neg (by omega), Rat.one_mul]
    · rw [if_neg (by omega), if_pos (by omega)]
      grind

theorem rational_zero_pow (n : Nat) : (0 : Rat) ^ n = if n = 0 then 1 else 0 := by
  cases n with
  | zero => exact Rat.pow_zero 0
  | succ n => rw [Rat.pow_succ, Rat.mul_zero, if_neg (Nat.succ_ne_zero n)]

theorem rationalPower_eq (q : Rat) (n : Nat) : rationalPower q n = q ^ n := by
  simp only [rationalPower, ← rational_neg_one_pow, ← rational_zero_pow]
  split
  next h => rw [h, rational_one_pow]
  next =>
    split
    next h => rw [h]
    next =>
      split
      next h => rw [h]
      next => rfl

namespace Monomial

/-- A power is greater than another if its variable comes earlier or its exponent is higher. -/
def comparePowers (p q : Variable × Nat) : Ordering :=
  (compare q.1 p.1).then (compare p.2 q.2)

theorem comparePowers_eq : comparePowers =
    compareLex (fun p q => compareOn Prod.fst q p) (compareOn Prod.snd) := rfl

instance : Std.TransCmp comparePowers := by
  rw [comparePowers_eq]
  exact inferInstance

instance : Std.LawfulEqCmp comparePowers where
  eq_of_compare {p q} h := by
    have h' := Ordering.then_eq_eq.1 h
    exact Prod.ext (Std.LawfulEqOrd.eq_of_compare h'.1).symm (Std.LawfulEqOrd.eq_of_compare h'.2)

/-- Leading monomials come first: at the first power where two of them differ, the greater leads. -/
instance : Ord Monomial := ⟨fun m n => List.compareLex comparePowers n.entries m.entries⟩

theorem compare_eq (m n : Monomial) :
    compare m n = List.compareLex comparePowers n.entries m.entries := rfl

instance : Std.TransOrd Monomial where
  eq_swap {m n} := by
    rw [compare_eq, compare_eq]
    exact Std.OrientedCmp.eq_swap
  isLE_trans {l m n} h k := by
    rw [compare_eq] at h k ⊢
    exact Std.TransCmp.isLE_trans k h

instance : Std.LawfulEqOrd Monomial where
  compare_self {m} := by
    rw [compare_eq]
    exact Std.ReflCmp.compare_self
  eq_of_compare {m n} h := by
    rw [compare_eq] at h
    exact Sparse.ext (Std.LawfulEqCmp.eq_of_compare h).symm

instance : One Monomial := ⟨(0 : Sparse Variable Nat)⟩

/-- Exponents of a common variable add up. -/
instance : Mul Monomial := ⟨Sparse.add⟩

def power (v : Variable) (e : Nat) : Monomial := Sparse.single v e

def isOne (m : Monomial) : Bool := m.isZero

def vars (m : Monomial) : List Variable := m.keys

def degree (m : Monomial) (v : Variable) : Nat := m.get v

def totalDegree (m : Monomial) : Nat := m.entries.foldl (fun d t => d + t.2) 0

/-- The cofactor of the power of a variable. -/
def without (v : Variable) (m : Monomial) : Monomial := m.filter (· ≠ v)

/-- Replaces all variables at once; powers of variables that become equal are multiplied. -/
def rename (f : Variable → Variable) (m : Monomial) : Monomial :=
  Sparse.ofList (m.entries.map fun t => (f t.1, t.2))

def eval (s : Variable → Rat) (m : Monomial) : Rat :=
  m.entries.foldr (fun t value => rationalPower (s t.1) t.2 * value) 1

theorem eval_eq (s : Variable → Rat) (m : Monomial) :
    m.eval s = m.entries.foldr (fun t value => s t.1 ^ t.2 * value) 1 := by
  simp only [eval, rationalPower_eq]

def powerText (t : Variable × Nat) : String :=
  if t.2 = 1 then t.1.text else t.1.text ++ "^" ++ toString t.2

def text (m : Monomial) : String :=
  if m.isOne then "1" else "*".intercalate (m.entries.map powerText)

end Monomial
end Planimetry
