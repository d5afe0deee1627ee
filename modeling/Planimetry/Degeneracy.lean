import Planimetry.Listing
import Planimetry.Polynomial.Printer
import Planimetry.Transformation.Basic

/-! Non-degeneracy conditions: polynomials that must not vanish, and what that means for the points. -/

namespace Planimetry

/-- A few points in a special position. -/
inductive Configuration where
  | identicalPoints
  | collinearPoints
  | perpendicularRays
  | equalSegments
  | parallelLines
  | perpendicularLines
  | concyclicPoints
  deriving DecidableEq, Repr

/-- A relation between labelled points, and how its failure is put into words. -/
structure Reading where
  relation : Relation
  points : List Label
  text : String
  deriving DecidableEq, Repr

/-- A polynomial that must not vanish, with its readings. -/
structure Nondegeneracy where
  polynomial : Polynomial
  explanations : List (List Label × String) := []
  deriving DecidableEq

/-- Why a configuration cannot be compared with a polynomial. -/
inductive DegeneracyError where
  | count (expected found : Nat)
  | transform (error : TransformError)
  deriving DecidableEq, Repr

/-- The sublists of a given length, in order. -/
def choose : Nat → List α → List (List α)
  | 0, _ => [[]]
  | _ + 1, [] => []
  | n + 1, a :: as => (choose n as).map (a :: ·) ++ choose (n + 1) as

namespace Configuration

def all : List Configuration :=
  [.identicalPoints, .collinearPoints, .perpendicularRays, .equalSegments, .parallelLines,
    .perpendicularLines, .concyclicPoints]

def name : Configuration → String
  | .identicalPoints => "IdenticalPoints"
  | .collinearPoints => "CollinearPoints"
  | .perpendicularRays => "PerpendicularRays"
  | .equalSegments => "EqualSegments"
  | .parallelLines => "ParallelLines"
  | .perpendicularLines => "PerpendicularLines"
  | .concyclicPoints => "ConcyclicPoints"

/-- The number of points in the configuration. -/
def arity : Configuration → Nat
  | .identicalPoints => 2
  | .collinearPoints | .perpendicularRays | .equalSegments => 3
  | .parallelLines | .perpendicularLines | .concyclicPoints => 4

def perpendicularReading (a b c d : Label) (points : List Label) : Reading :=
  ⟨.perpendicular a b c d, points,
    "Lines " ++ a ++ b ++ " and " ++ c ++ d ++ " are not perpendicular."⟩

/-- Each point in turn is the vertex of two rays to the other two. -/
def vertexReadings (labels : List Label) (reading : Label → Label → Label → Reading) :
    List (Except DegeneracyError Reading) :=
  labels.map fun v => match labels.filter (· ≠ v) with
    | [p, q] => .ok (reading v p q)
    | others => .error (.count 2 others.length)

/-- The three ways to split four points into two pairs. -/
def pairReadings (labels : List Label) (reading : Label → Label → Label → Label → Reading) :
    List (Except DegeneracyError Reading) :=
  match labels with
  | [a, b, c, d] => [.ok (reading a b c d), .ok (reading a c b d), .ok (reading a d b c)]
  | _ => [.error (.count 4 labels.length)]

/-- What the configuration can mean for points in a given order, in the order of trial. -/
def readings (labels : List Label) : Configuration → List (Except DegeneracyError Reading)
  | .identicalPoints => match labels with
    | [a, b] => [.ok ⟨.identical a b, [a, b],
        "Points " ++ a ++ " and " ++ b ++ " are not identical."⟩]
    | _ => [.error (.count 2 labels.length)]
  | .collinearPoints => match labels with
    | [a, b, c] => [.ok ⟨.collinear a b c, [a, b, c],
        "Points " ++ a ++ ", " ++ b ++ " and " ++ c ++ " are not collinear."⟩]
    | _ => [.error (.count 3 labels.length)]
  | .perpendicularRays =>
    vertexReadings labels fun v p q => perpendicularReading v p v q [v, p, q]
  | .equalSegments => vertexReadings labels fun v p q =>
      ⟨.congruent v p v q, [v, p, q],
        "Segments " ++ v ++ p ++ " and " ++ v ++ q ++ " are not of equal length."⟩
  | .parallelLines => pairReadings labels fun a b c d =>
      ⟨.parallel a b c d, [a, b, c, d],
        "Lines " ++ a ++ b ++ " and " ++ c ++ d ++ " are not parallel."⟩
  | .perpendicularLines =>
    pairReadings labels fun a b c d => perpendicularReading a b c d [a, b, c, d]
  | .concyclicPoints => match labels with
    | [a, b, c, d] => [.ok ⟨.concyclic a b c d, [a, b, c, d],
        "Points " ++ a ++ ", " ++ b ++ ", " ++ c ++ " and " ++ d ++ " are not concyclic."⟩]
    | _ => [.error (.count 4 labels.length)]

/-- A protocol that holds copies of the given points only, and goes on with the same variables. -/
def auxiliary (p : Protocol) (points : List Step) : Protocol :=
  points.foldl Protocol.addSeed
    { freeIndex := p.freeIndex, dependentIndex := p.dependentIndex }

/-- The polynomials that vanish where the relation of a reading holds between the points. -/
def polynomials (p : Protocol) (points : List Step) (r : Reading) :
    Except TransformError (List Polynomial) :=
  let c := Construction.statement r.relation
  let s : Step := { label := "ndg:" ++ c.kind.name, construction := c }
  Transformation.statementPolynomials { auxiliary p points with statement := some s }

/-- The first reading whose polynomial is proportional to the given one. -/
def firstMatch (p : Protocol) (q : Polynomial) (points : List Step) :
    List (Except DegeneracyError Reading) → Except DegeneracyError (Option Reading)
  | [] => .ok none
  | .error e :: _ => .error e
  | .ok r :: rest => do
    let ps ← (polynomials p points r).mapError .transform
    if ps.any q.isProportional then return some r else firstMatch p q points rest

/-- A reading of a polynomial as this configuration of the given points. -/
def match? (c : Configuration) (p : Protocol) (q : Polynomial) (points : List Step) :
    Except DegeneracyError (Option Reading) :=
  firstMatch p q points (c.readings (points.map Step.label))

end Configuration

namespace Nondegeneracy

/-- Records a reading; a later one for the same points replaces the text of an earlier one. -/
def explain (n : Nondegeneracy) (r : Reading) : Nondegeneracy :=
  { n with explanations := Listing.put (· == ·) r.points r.text n.explanations }

def isExplained (n : Nondegeneracy) : Bool := !n.explanations.isEmpty

def best? (n : Nondegeneracy) : Option String := n.explanations.head?.map Prod.snd

/-- The first explanation, else the condition on the polynomial itself. -/
def text (n : Nondegeneracy) : String := n.best?.getD (n.polynomial.text ++ " != 0")

end Nondegeneracy

namespace Protocol

/-- The points with a coordinate that occurs in a polynomial. -/
def candidates (p : Protocol) (q : Polynomial) : List Step :=
  let used := q.vars
  p.points.filter fun s => match s.coordinates? with
    | some (x, y) => used.contains x || used.contains y
    | none => false

/-- The first reading of a polynomial, over all configurations of some points. -/
def firstReading (p : Protocol) (q : Polynomial) :
    List (Configuration × List Step) → Except DegeneracyError (Option Reading)
  | [] => .ok none
  | (c, points) :: rest => do
    match ← c.match? p q points with
    | some r => return some r
    | none => firstReading p q rest

/-- A reading of a polynomial, unless it involves too many points. -/
def reading? (p : Protocol) (maxPoints : Int) (q : Polynomial) :
    Except DegeneracyError (Option Reading) :=
  let points := p.candidates q
  if maxPoints < points.length then .ok none
  else p.firstReading q <| Configuration.all.flatMap fun c =>
    (choose c.arity points).map fun chosen => (c, chosen)

/-- What is to be told of a polynomial without a reading. -/
def unexplainedEvents (p : Protocol) (maxPoints : Int) (q : Polynomial) : List Event :=
  let count := (p.candidates q).length
  (if maxPoints < count then
    [⟨.warning, .degeneracy, "NDG " ++ q.text ++ " involves " ++ toString count ++
      " points (limit " ++ toString maxPoints ++ "), not explained"⟩]
  else []) ++
    [⟨.warning, .degeneracy,
      "No readable explanation for NDG condition " ++ q.text ++ " != 0"⟩]

/-- The conditions that some polynomials do not vanish, with the events on the way to them: constants
and multiples of earlier polynomials are left out. -/
def explainOnto (p : Protocol) (maxPoints : Int) (done : List Nondegeneracy) (events : List Event) :
    List Polynomial → Except DegeneracyError (List Nondegeneracy) × List Event
  | [] => (.ok done, events)
  | q :: qs =>
    if q.isConstant || done.any fun n => n.polynomial.isProportional q then
      explainOnto p maxPoints done events qs
    else
      match p.reading? maxPoints q with
      | .error e => (.error e, events)
      | .ok (some r) =>
        explainOnto p maxPoints (done ++ [Nondegeneracy.explain ⟨q, []⟩ r]) events qs
      | .ok none =>
        explainOnto p maxPoints (done ++ [⟨q, []⟩]) (events ++ p.unexplainedEvents maxPoints q) qs

def explainAll (p : Protocol) (maxPoints : Int) (qs : List Polynomial) :
    Except DegeneracyError (List Nondegeneracy) × List Event :=
  p.explainOnto maxPoints [] [] qs

end Protocol
end Planimetry
