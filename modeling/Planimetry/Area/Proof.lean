import Planimetry.Area.Elimination
import Planimetry.Settings
import Planimetry.Transformation.Basic

/-! Proofs by the area method: constructed points are eliminated from the statement in reverse order,
and what is left is decided in the coordinates of the free points. -/

namespace Planimetry.Area

/-- The claim that two operands are equal, which only expressions can be proved to be. -/
structure Statement where
  left : Operand
  right : Operand := .expression .zero
  deriving DecidableEq

/-- What a proof changes on its way: the protocol, whose points get coordinates; the points whose
definitions were used; the variables of free ratios; and the events so far. -/
structure Progress where
  protocol : Protocol
  used : List Label := []
  ratios : List (Quantity × Variable) := []
  events : List Event := []
  deriving DecidableEq

/-- Computations that make progress, also when they fail. -/
abbrev Proving := ExceptT Error (StateM Progress)

/-- The limits of a proof, and the definitions of the points. -/
structure Prover where
  settings : Settings
  context : Context
  deriving DecidableEq

/-- The outcome of a proof: the expanded statement after elimination, its polynomial if that form is
not zero, the expression after each elimination, and the polynomials that must not vanish. -/
structure Proof where
  holds : Bool
  form : Expansion
  polynomial : Option Polynomial
  trace : List (Label × Expr)
  nondegenerate : List Polynomial
  deriving DecidableEq

namespace Statement

/-- The expression that vanishes where the statement holds. -/
def expression (s : Statement) : Except Error Expr :=
  (if s.right = .expression .zero then s.left else .node .sub s.left s.right).expression?

/-- The expression that vanishes where a relation holds. -/
def ofRelation : Relation → Except Error Expr
  | .trivial => .ok .zero
  | .collinear a b c => .ok (.atom (.area a b c))
  | .parallel a b c d => .ok (.sub (.atom (.area a c d)) (.atom (.area b c d)))
  | .perpendicular a b c d => .ok (.sub (.atom (.pythagoras a c d)) (.atom (.pythagoras b c d)))
  | .congruent a b c d => .ok (.sub (.atom (.pythagoras a b a)) (.atom (.pythagoras c d c)))
  | r => .error (.noAreaForm (Construction.statement r).kind)

/-- The expression that vanishes where the construction holds as a statement. -/
def ofConstruction : Construction → Except Error Expr
  | .statement r => ofRelation r
  | c => .error (.noAreaForm c.kind)

end Statement

namespace Proving

/-- Runs a computation that records the use of definitions. -/
def recording (u : Using α) : Proving α := fun s =>
  let (r, used) := u.run s.used
  (r, { s with used })

def report (e : Event) : Proving Unit := modify fun s => { s with events := s.events ++ [e] }

end Proving

namespace Prover

def ofProtocol (p : Protocol) (settings : Settings) : Prover := ⟨settings, .ofProtocol p⟩

/-- Simplifies an expression, and tells if the limit stops it. -/
def simplify (m : Prover) (e : Expr) : Proving Expr := do
  let limit := m.settings.maxSimplifySteps
  let (e, settled) ← e.simplify limit
  if !settled then
    Proving.report ⟨.warning, .areaExpressions, "Simplification stopped after " ++ toString limit ++
      " steps (size " ++ toString e.size ++ ")"⟩
  return e

/-- Eliminates those of the given points that occur, in order, and keeps each expression on the way. -/
def eliminateAll (m : Prover) : List Label → Expr → Proving (Expr × List (Label × Expr))
  | [], e => return (e, [])
  | p :: ps, e => do
    if ← m.context.mentions p e then
      let e ← m.simplify (← Proving.recording (m.context.eliminate e p))
      let (last, trace) ← m.eliminateAll ps e
      return (last, (p, e) :: trace)
    else m.eliminateAll ps e

/-- The constructed points, up to the one before a given point. -/
def pointsBefore (m : Prover) : Option Label → Except Error (List Label)
  | none => .ok m.context.order
  | some p =>
    if m.context.order.contains p then .ok (m.context.order.takeWhile (· ≠ p))
    else .error (.notInOrder p)

/-- Eliminates the constructed points, the last one first. -/
def eliminateConstructed (m : Prover) (e : Expr) (before : Option Label) :
    Proving (Expr × List (Label × Expr)) := do
  let points ← m.pointsBefore before
  m.eliminateAll points.reverse (← m.simplify e)

/-- Eliminates the constructed points from an operand; only expressions have a simplification to begin
with. -/
def eliminateFrom (m : Prover) (before : Option Label) :
    Operand → Proving (Expr × List (Label × Expr))
  | .expression e => m.eliminateConstructed e before
  | a => do
    let _ ← m.pointsBefore before
    return (← a.simplify m.settings.maxSimplifySteps, [])

/-- Gives all points their coordinates unless they have them. -/
def placePoints (m : Prover) : Proving Unit := do
  let s ← get
  if s.protocol.points.all Step.isPlaced then return
  Proving.report (Transformation.startEvent s.protocol)
  let (error?, t) := Transformation.run
    { protocol := s.protocol
      best := m.settings.useBestInstantiation
      align := m.settings.alignBasePoints }
  modify fun s => { s with protocol := t.protocol }
  match error? with
  | some e => throw (.transform e)
  | none => return

/-- The variable of a free ratio, a fresh one the first time. -/
def ratioVariable (q : Quantity) : Proving Variable := do
  let s ← get
  match s.ratios.lookup q with
  | some v => return v
  | none =>
    let (v, p) := s.protocol.nextFree
    set { s with protocol := p, ratios := s.ratios ++ [(q, v)] }
    return v

/-- The coordinates of a free point. -/
def freeCoordinates (m : Prover) (p : Protocol) (label : Label) :
    Except Error (Variable × Variable) :=
  match (p.get? label).bind Step.coordinates? with
  | some xy => if m.context.freePoints.contains label then .ok xy else .error (.remaining label)
  | none => .error (.remaining label)

/-- A template of three points in the coordinates of free points. -/
def inCoordinates (m : Prover) (template : Template) (a b c : Label) : Proving Polynomial := do
  let p := (← get).protocol
  let first ← m.freeCoordinates p a
  let second ← m.freeCoordinates p b
  let third ← m.freeCoordinates p c
  let points := [("A", first), ("B", second), ("C", third)]
  match Template.instantiate (fun r => points.lookup r) template with
  | .ok q => return q
  | .error missing => throw (.transform (.missingRoles a missing))

/-- The polynomial of a quantity of free points, or the variable of a free ratio. -/
def quantityPolynomial (m : Prover) : Quantity → Proving Polynomial
  | .area a b c => m.inCoordinates (Template.signedArea "A" "B" "C") a b c
  | .pythagoras a b c => m.inCoordinates (Template.pythagorasDifference "A" "B" "C") a b c
  | .ratio a b c d => do
    if ← m.context.isParameter (.ratio a b c d) then
      return .ofVariable (← ratioVariable (.ratio a b c d))
    else throw (.notParameter (.ratio a b c d))

/-- The product of a polynomial with those of quantities. -/
def productPolynomial (m : Prover) (q : Polynomial) : Factors → Proving Polynomial
  | [] => return q
  | f :: fs => do m.productPolynomial (q * (← m.quantityPolynomial f)) fs

/-- The sum of a polynomial with those of products. -/
def sumPolynomial (m : Prover) (q : Polynomial) : List (Factors × Rat) → Proving Polynomial
  | [] => return q
  | t :: ts => do m.sumPolynomial (q + (← m.productPolynomial (.constant t.2) t.1)) ts

/-- The polynomial of an expanded form in the coordinates of free points. -/
def toPolynomial (m : Prover) (form : Expansion) : Proving Polynomial := do
  m.placePoints
  m.sumPolynomial 0 form.entries

/-- The polynomial of a denominator of the definition of a point. -/
def denominatorPolynomial (m : Prover) (point : Label) (e : Expr) : Proving Polynomial := do
  let (e, _) ← m.eliminateConstructed e (some point)
  m.toPolynomial (← e.normalForm)

/-- The polynomials that are not constant among those of some denominators. -/
def denominatorPolynomials (m : Prover) (point : Label) : List Expr → Proving (List Polynomial)
  | [] => return []
  | e :: es => do
    let q ← m.denominatorPolynomial point e
    let qs ← m.denominatorPolynomials point es
    return if q.isConstant then qs else q :: qs

/-- The denominators of all points used, from a position on; eliminating a denominator can use
further points, but no more than there are definitions. -/
def denominatorsFrom (m : Prover) : Nat → Nat → Proving (List Polynomial)
  | 0, _ => return []
  | n + 1, position => do
    match (← get).used[position]? with
    | none => return []
    | some point =>
      let qs ← m.denominatorPolynomials point (m.context.denominators point)
      return qs ++ (← m.denominatorsFrom n (position + 1))

/-- The polynomials that must not vanish for the lemmas in use. -/
def nondegenerate (m : Prover) : Proving (List Polynomial) :=
  m.denominatorsFrom m.context.order.length 0

/-- The expression to decide: an explicit statement, or else that of the protocol. -/
def start (p : Protocol) (statement : Option Statement) : Except Error Expr := do
  let e ← match statement, p.statement with
    | some s, _ => s.expression
    | none, some s => Statement.ofConstruction s.construction
    | none, none => .error .noStatement
  match e.points.filter fun l => !p.contains l with
  | [] => return e
  | unknown => .error (.unknownPoints unknown)

/-- Decides a statement. -/
def prove (m : Prover) (statement : Option Statement) : Proving Proof := do
  let e ← start (← get).protocol statement
  let (e, trace) ← m.eliminateConstructed e none
  let form ← e.normalForm
  Proving.report ⟨.info, .areaProver,
    "Area method normal form has " ++ toString form.size ++ " term(s)"⟩
  let polynomial ← if form.isZero then pure none else some <$> m.toPolynomial form
  let holds := polynomial.all Sparse.isZero
  return ⟨holds, form, polynomial, trace, ← m.nondegenerate⟩

end Prover
end Planimetry.Area
