/-! Lists by position, where a negative number counts from the back, and by key. -/

namespace Planimetry.Listing

/-- A number of items from the front; a negative one counts those left out at the back. -/
def front (n : Int) (xs : List α) : List α :=
  xs.take (if 0 ≤ n then n.toNat else xs.length - n.natAbs)

/-- The item at a position; a negative one counts from the back. -/
def item? (i : Int) (xs : List α) : Option α :=
  if 0 ≤ i then xs[i.toNat]?
  else if i.natAbs ≤ xs.length then xs[xs.length - i.natAbs]?
  else none

/-- Puts a value under a key: in its place if the list has the key, else at the end. -/
def put (same : κ → κ → Bool) (k : κ) (a : α) : List (κ × α) → List (κ × α)
  | [] => [(k, a)]
  | e :: es => if same e.1 k then (e.1, a) :: es else e :: put same k a es

/-- Puts the values of a list under their keys, one after another. -/
def collect (same : κ → κ → Bool) (entries : List (κ × α)) : List (κ × α) :=
  entries.foldl (fun es e => put same e.1 e.2 es) []

end Planimetry.Listing
