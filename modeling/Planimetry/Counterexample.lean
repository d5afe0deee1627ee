import Planimetry.Event
import Planimetry.Polynomial.Basic

/-! Integer values of free variables at which a polynomial does not vanish, from reproducible draws. -/

namespace Planimetry

/-- A source of integers: a linear congruential generator by its state, or a list of draws. -/
inductive Generator where
  | congruential (state : Nat)
  | listed (draws : List Int)
  deriving DecidableEq, Repr

namespace Generator

def modulus : Nat := 4294967296

def seeded (seed : Int) : Generator := .congruential (seed % modulus).toNat

/-- The next integer, at least `low` and below `high`; a list of draws gives whatever it holds. -/
def next (low high : Int) : Generator → Int × Generator
  | .congruential s =>
    let s := (s * 1664525 + 1013904223) % modulus
    (low + Int.fmod (s / 256) (high - low), .congruential s)
  | .listed [] => (0, .listed [])
  | .listed (d :: ds) => (d, .listed ds)

end Generator

/-- Values of variables, in the order of the variables. -/
abbrev Assignment := List (Variable × Int)

namespace Assignment

def value (a : Assignment) (v : Variable) : Rat := ((a.lookup v).getD 0 : Int)

/-- Draws a value for each variable, none further from zero than the bound. -/
def draw (bound : Int) : List Variable → Generator → Assignment × Generator
  | [], g => ([], g)
  | v :: vs, g =>
    let (n, g) := g.next (-bound) (bound + 1)
    let (rest, g) := draw bound vs g
    ((v, n) :: rest, g)

end Assignment

namespace Polynomial

/-- Only a nonzero polynomial in free variables has a counterexample to its vanishing. -/
def isRefutable (p : Polynomial) : Bool := !p.isZero && p.vars.all Variable.isFree

/-- Draws assignments until the polynomial does not vanish at one of them. -/
def search (p : Polynomial) (bound : Int) : Nat → Generator → Option Assignment × Generator
  | 0, g => (none, g)
  | n + 1, g =>
    let (a, g) := Assignment.draw bound p.vars g
    if p.eval a.value = 0 then search p bound n g else (some a, g)

/-- An assignment at which the polynomial does not vanish, if it is found in some attempts. -/
def counterexample (p : Polynomial) (attempts bound : Int) (g : Generator) :
    Option Assignment × Generator :=
  if p.isRefutable then p.search bound attempts.toNat g else (none, g)

/-- Tells of a search without success. -/
def counterexampleEvents (p : Polynomial) (attempts : Int) (found : Option Assignment) :
    List Event :=
  if p.isRefutable && found.isNone then
    [⟨.info, .witness, "No counterexample within " ++ toString attempts ++ " draws"⟩]
  else []

end Polynomial
end Planimetry
