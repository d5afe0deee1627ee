import Planimetry.Monomial

/-! Polynomials with rational coefficients: nonzero terms from the leading monomial down. -/

namespace Planimetry

abbrev Polynomial := Sparse Monomial Rat

namespace Polynomial

def constant (c : Rat) : Polynomial := Sparse.single 1 c

def ofVariable (v : Variable) : Polynomial := Sparse.single (Monomial.power v 1) 1

instance : One Polynomial := ⟨constant 1⟩

def scale (c : Rat) (p : Polynomial) : Polynomial :=
  if h : c = 0 then 0
  else ⟨p.entries.map fun t => (t.1, c * t.2),
    List.pairwise_map.2 p.ascending,
    fun t ht => by
      obtain ⟨s, hs, rfl⟩ := List.mem_map.1 ht
      exact fun hz => (Rat.mul_eq_zero.1 hz).elim h (p.nonzero s hs)⟩

instance : Neg Polynomial := ⟨scale (-1)⟩

instance : Sub Polynomial := ⟨fun p q => p + -q⟩

/-- All products of a term of one factor with a term of the other, like terms collected. -/
instance : Mul Polynomial := ⟨fun p q =>
  Sparse.ofList (p.entries.flatMap fun s => q.entries.map fun t => (s.1 * t.1, s.2 * t.2))⟩

def pow (p : Polynomial) (n : Nat) : Polynomial := Nat.repeat (fun q => q * p) n 1

instance : Pow Polynomial Nat := ⟨pow⟩

def mulTerm (m : Monomial) (c : Rat) (p : Polynomial) : Polynomial :=
  Sparse.ofList (p.entries.map fun t => (t.1 * m, t.2 * c))

def isConstant (p : Polynomial) : Bool := p.entries.all fun t => t.1.isOne

def constantTerm (p : Polynomial) : Rat := p.get 1

/-- The product of all monomials, in which exactly the variables of the polynomial occur. -/
def support (p : Polynomial) : Monomial := p.entries.foldl (fun m t => m * t.1) 1

/-- The variables that occur, each once, in ascending order. -/
def vars (p : Polynomial) : List Variable := p.support.vars

def degree (p : Polynomial) (v : Variable) : Nat :=
  p.entries.foldl (fun d t => max d (t.1.degree v)) 0

def totalDegree (p : Polynomial) : Nat :=
  p.entries.foldl (fun d t => max d t.1.totalDegree) 0

/-- The coefficient of the `n`-th power of a variable, as a polynomial without that variable. No two of the
terms picked for it are alike, so collecting them merges none. -/
def coefficient (p : Polynomial) (v : Variable) (n : Nat) : Polynomial :=
  Sparse.ofList ((p.entries.filter fun t => t.1.degree v = n).map fun t => (t.1.without v, t.2))

/-- The dependent variable of highest index. -/
def leadingVariable (p : Polynomial) : Option Variable :=
  (p.vars.filter Variable.isDependent).getLast?

def leadingMonomial (p : Polynomial) : Option Monomial := p.entries.head?.map Prod.fst

def leadingCoefficient (p : Polynomial) : Rat := (p.entries.head?.map Prod.snd).getD 0

/-- The exponents of a variable that occur, each once. -/
def exponents (p : Polynomial) (v : Variable) : List Nat :=
  (p.entries.map fun t => t.1.degree v).eraseDups

/-- Replaces a variable by a polynomial. -/
def substitute (p : Polynomial) (v : Variable) (q : Polynomial) : Polynomial :=
  Sparse.sum ((p.exponents v).map fun n => p.coefficient v n * q ^ n)

/-- Replaces all variables at once; distinct variables may become equal. -/
def rename (f : Variable → Variable) (p : Polynomial) : Polynomial :=
  Sparse.ofList (p.entries.map fun t => (t.1.rename f, t.2))

def eval (s : Variable → Rat) (p : Polynomial) : Rat :=
  p.entries.foldr (fun t value => t.2 * t.1.eval s + value) 0

/-- The value at a partial assignment, if it covers all variables that occur. -/
def eval? (s : Variable → Option Rat) (p : Polynomial) : Option Rat :=
  if p.vars.all fun v => (s v).isSome then some (p.eval fun v => (s v).getD 0) else none

/-- Tells whether one polynomial is a nonzero multiple of the other. -/
def isProportional (p q : Polynomial) : Bool :=
  p.size == q.size && q == p.scale (q.leadingCoefficient / p.leadingCoefficient)

end Polynomial
end Planimetry
