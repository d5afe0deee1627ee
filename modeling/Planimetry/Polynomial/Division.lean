import Planimetry.Polynomial.Basic

/-! Pseudo-division in one variable, which needs no division of coefficients. -/

namespace Planimetry.Polynomial

/-- The leading coefficient in a variable. -/
def initial (p : Polynomial) (v : Variable) : Polynomial := p.coefficient v (p.degree v)

/-- Multiplies by the initial of the divisor and cancels the terms of highest degree in `v`. -/
def reduceOnce (g : Polynomial) (v : Variable) (r : Polynomial) : Polynomial :=
  r * g.initial v - (r.initial v * g).mulTerm (Monomial.power v (r.degree v - g.degree v)) 1

/-- Reduces until the degree in `v` is below that of `g`, at most the given number of times. -/
def reduceWhile (g : Polynomial) (v : Variable) : Nat → Polynomial → Polynomial
  | 0, r => r
  | n + 1, r => if r.degree v < g.degree v then r else reduceWhile g v n (reduceOnce g v r)

/-- The pseudo-remainder by a divisor of positive degree in `v`. Each round lowers the degree, so
the rounds suffice. -/
def pseudoRemainder (f g : Polynomial) (v : Variable) : Polynomial :=
  reduceWhile g v (f.degree v + 1 - g.degree v) f

end Planimetry.Polynomial
