import Planimetry.Polynomial.Division
import Planimetry.Transformation.Basic

/-! Triangular systems: one polynomial for each dependent variable, found by pseudo-division from the
highest variable down, and the successive pseudo-remainder of a statement by such a system. -/

namespace Planimetry

/-- A pseudo-remainder has more terms than allowed. -/
structure LimitExceeded where
  size : Nat
  limit : Int
  deriving DecidableEq, Repr

/-- A polynomial chosen to eliminate its highest dependent variable. -/
structure ChainEntry where
  eliminated : Variable
  hypothesis : Hypothesis
  deriving DecidableEq

/-- A chain with ascending variables, and the polynomials left without any dependent variable. -/
structure Triangular where
  chain : List ChainEntry := []
  residual : List Polynomial := []
  deriving DecidableEq

namespace LimitExceeded

def message (e : LimitExceeded) : String :=
  "intermediate polynomial has " ++ toString e.size ++ " terms (limit " ++ toString e.limit ++ ")"

end LimitExceeded

namespace ChainEntry

def polynomial (e : ChainEntry) : Polynomial := e.hypothesis.polynomial

def initial (e : ChainEntry) : Polynomial := e.polynomial.initial e.eliminated

end ChainEntry

namespace Polynomial

/-- The pseudo-remainder, unless it has more terms than the limit. -/
def limitedRemainder (limit : Int) (v : Variable) (f g : Polynomial) :
    Except LimitExceeded Polynomial :=
  let r := f.pseudoRemainder g v
  if limit < r.size then .error ⟨r.size, limit⟩ else .ok r

end Polynomial

namespace Triangular

def vars (t : Triangular) : List Variable := t.chain.map ChainEntry.eliminated

def initials (t : Triangular) : List Polynomial := t.chain.map ChainEntry.initial

/-- A nonzero constant is left, so that the hypotheses have no common zero. -/
def isInconsistent (t : Triangular) : Bool := t.residual.any Polynomial.isConstant

/-- Lower degree in the variable ranks first, then fewer terms. -/
def precedes (v : Variable) (h k : Hypothesis) : Bool :=
  h.polynomial.degree v < k.polynomial.degree v ||
    (h.polynomial.degree v == k.polynomial.degree v && h.polynomial.size ≤ k.polynomial.size)

/-- The first hypothesis of best rank that contains the variable, with those before and after it. -/
def splitPivot (v : Variable) :
    List Hypothesis → Option (List Hypothesis × Hypothesis × List Hypothesis)
  | [] => none
  | h :: hs =>
    match splitPivot v hs with
    | none => if 0 < h.polynomial.degree v then some ([], h, hs) else none
    | some (before, pivot, after) =>
      if 0 < h.polynomial.degree v && precedes v h pivot then some ([], h, hs)
      else some (h :: before, pivot, after)

/-- Replaces the hypotheses that contain the variable by their nonzero pseudo-remainders. -/
def reduceBy (limit : Int) (v : Variable) (pivot : Polynomial) :
    List Hypothesis → Except LimitExceeded (List Hypothesis)
  | [] => .ok []
  | h :: hs => do
    if h.polynomial.degree v = 0 then
      return h :: (← reduceBy limit v pivot hs)
    else
      let r ← h.polynomial.limitedRemainder limit v pivot
      let rest ← reduceBy limit v pivot hs
      return if r.isZero then rest else { h with polynomial := r } :: rest

/-- Reduces by pivots until one hypothesis at most contains the variable, and takes that one out.
Each round lowers a degree, so as many rounds as the degrees add up to suffice. -/
def isolate (limit : Int) (v : Variable) :
    Nat → List Hypothesis → Except LimitExceeded (Option Hypothesis × List Hypothesis)
  | 0, pending => .ok (none, pending)
  | rounds + 1, pending =>
    match splitPivot v pending with
    | none => .ok (none, pending)
    | some (before, pivot, after) =>
      if (before ++ after).all fun h => h.polynomial.degree v = 0 then
        .ok (some pivot, before ++ after)
      else do
        let before ← reduceBy limit v pivot.polynomial before
        let after ← reduceBy limit v pivot.polynomial after
        isolate limit v rounds (before ++ pivot :: after)

def degreeSum (v : Variable) (pending : List Hypothesis) : Nat :=
  pending.foldl (fun n h => n + h.polynomial.degree v) 0

/-- Eliminates variables in the given order. -/
def eliminate (limit : Int) (t : Triangular) (pending : List Hypothesis) :
    List Variable → Except LimitExceeded Triangular
  | [] => .ok { t with residual := pending.map Hypothesis.polynomial }
  | v :: vs => do
    let (pivot, rest) ← isolate limit v (degreeSum v pending) pending
    let entries := pivot.toList.map fun h => ⟨v, h⟩
    eliminate limit { t with chain := entries ++ t.chain } rest vs

/-- The dependent variables of a system, the one of highest index first. -/
def dependents (system : List Hypothesis) : List Variable :=
  let support := system.foldl (fun m h => m * h.polynomial.support) (1 : Monomial)
  (support.vars.filter Variable.isDependent).reverse

/-- Brings a system to triangular form. -/
def ofSystem (limit : Int) (system : List Hypothesis) : Except LimitExceeded Triangular :=
  let pending := system.filter fun h => !h.polynomial.isZero
  eliminate limit {} pending (dependents pending)

/-- Divides by chain entries in the given order. -/
def reduceThrough (limit : Int) : List ChainEntry → Polynomial → Except LimitExceeded Polynomial
  | [], r => .ok r
  | e :: es, r => do
    if r.degree e.eliminated = 0 then reduceThrough limit es r
    else reduceThrough limit es (← r.limitedRemainder limit e.eliminated e.polynomial)

/-- The successive pseudo-remainder of a statement, highest variable first. -/
def reduce (limit : Int) (t : Triangular) (statement : Polynomial) :
    Except LimitExceeded Polynomial :=
  reduceThrough limit t.chain.reverse statement

/-- Tells of constraints on free variables that triangulation left over. -/
def events (t : Triangular) : List Event :=
  if t.residual.isEmpty then []
  else [⟨.info, .triangulation,
    "Triangulation left " ++ toString t.residual.length ++ " parameter-only polynomial(s)"⟩]

end Triangular
end Planimetry
