import Planimetry.Figure.Protocol
import Planimetry.Listing
import Planimetry.Template

/-! The conditions that bind a point or a statement to the points on which it is built. -/

namespace Planimetry

/-- A template together with the label that plays each of its roles. -/
structure Condition where
  template : Template
  roles : List (Label × Label)
  deriving DecidableEq

/-- Conditions that together place a point. -/
abbrev Alternative := List Condition

/-- A point refers to a line or circle that the protocol does not have as such. -/
inductive SetError where
  | absent (label : Label)
  | notASet (label : Label)
  deriving DecidableEq, Repr

/-- The pairs of elements of a list, in order. -/
def pairs : List α → List (α × α)
  | [] => []
  | a :: as => as.map (fun b => (a, b)) ++ pairs as

/-- The triples of elements of a list, in order. -/
def triples : List α → List (α × α × α)
  | [] => []
  | a :: as => (pairs as).map (fun b => (a, b)) ++ triples as

namespace Condition

/-- The condition with roles in the order in which they first come; of two labels for one role the
later counts. -/
def ofRoles (template : Template) (roles : List (Label × Label)) : Condition :=
  ⟨template, Listing.collect (· == ·) roles⟩

/-- The labels that a condition needs, in the order of its roles. -/
def generators (c : Condition) : List Label := c.roles.map Prod.snd

/-- The one way to place the point `own` by two conditions, which share their other roles. -/
def both (own : Label) (roles : List (Label × Label)) (templates : Template × Template) :
    List Alternative :=
  [[⟨templates.1, (Template.own, own) :: roles⟩, ⟨templates.2, (Template.own, own) :: roles⟩]]

end Condition

namespace Protocol

/-- The conditions each of which keeps the point on a line or circle, built on the points known to
lie there before the given index. -/
def membership (p : Protocol) (set : Step) (locus : Locus) (point : Label) (before : Int) :
    List Condition :=
  let known := p.knownMembers set before
  let own := (Template.own, point)
  let directed (template : Template) (line : Label) : List Condition :=
    match p.get? line with
    | none => []
    | some base => known.flatMap fun through =>
      (pairs (p.knownMembers base set.index)).map fun ab =>
        ⟨template, [own, ("P", through), ("A", ab.1), ("B", ab.2)]⟩
  match locus with
  | .lineThrough .. => (pairs known).map fun ab =>
      ⟨Template.collinear Template.own "A" "B", [own, ("A", ab.1), ("B", ab.2)]⟩
  | .parallel _ line => directed (Template.parallel "P" Template.own "A" "B") line
  | .perpendicular _ line => directed (Template.perpendicular "P" Template.own "A" "B") line
  | .bisector a b => [⟨Template.equidistant Template.own "A" "B", [own, ("A", a), ("B", b)]⟩]
  | .angleRay a vertex a1 o1 b1 =>
    [⟨Template.angleRay,
      [own, ("A", a), ("O", vertex), ("A1", a1), ("O1", o1), ("B1", b1)]⟩]
  | .angleRayToSixty a vertex a1 o1 b1 a2 o2 b2 angle =>
    [⟨Template.angleRayToSixty,
      [own, ("A", a), ("O", vertex), ("A1", a1), ("O1", o1), ("B1", b1), ("A2", a2), ("O2", o2),
        ("B2", b2), ("T", angle)]⟩]
  | .circleThrough center _ => known.map fun through =>
      ⟨Template.onCircle Template.own "O" "A", [own, ("O", center), ("A", through)]⟩
  | .circleWithDiameter a b =>
    [⟨Template.onCircleWithDiameter Template.own "A" "B", [own, ("A", a), ("B", b)]⟩]
  | .circumscribed .. => (triples known).map fun abc =>
      ⟨Template.concyclic "A" "B" "C" Template.own,
        [own, ("A", abc.1), ("B", abc.2.1), ("C", abc.2.2)]⟩

/-- The conditions for a point on the line or circle with a label. -/
def conditionsOn (p : Protocol) (set point : Label) (before : Int) :
    Except SetError (List Condition) :=
  match p.get? set with
  | none => .error (.absent set)
  | some s => match s.construction with
    | .set locus => .ok (p.membership s locus point before)
    | _ => .error (.notASet set)

/-- The ways to place a point by conditions; a free point has none. -/
def pointAlternatives (p : Protocol) (own : Label) (before : Int) :
    PointRule → Except SetError (List Alternative)
  | .free => .ok []
  | .midpoint a b => .ok (Condition.both own [("A", a), ("B", b)] Template.midpoint)
  | .onLine l => return (← p.conditionsOn l own before).map fun c => [c]
  | .onCircle c => return (← p.conditionsOn c own before).map fun c => [c]
  | .intersection l m => do
    let first ← p.conditionsOn l own before
    let second ← p.conditionsOn m own before
    return first.flatMap fun c => second.map fun d => [c, d]
  | .foot q a b => .ok (Condition.both own [("P", q), ("A", a), ("B", b)] Template.foot)
  | .shifted q a b =>
    .ok (Condition.both own [("P", q), ("A", a), ("B", b)] Template.shift)
  | .rotated q o => .ok (Condition.both own [("P", q), ("O", o)] Template.quarterTurn)
  | .symmetric q o => .ok (Condition.both own [("P", q), ("O", o)] Template.centralSymmetry)
  | .reflected q a b =>
    .ok (Condition.both own [("P", q), ("A", a), ("B", b)] Template.reflection)
  | .circleCenter a b c =>
    .ok (Condition.both own [("A", a), ("B", b), ("C", c)] Template.circleCenter)
  | .angleOfSixty => .ok (Condition.both own [] Template.tangentOfSixty)

end Protocol

namespace Relation

/-- The condition that holds exactly where the statement does. -/
def condition : Relation → Condition
  | .trivial => ⟨0, []⟩
  | .identical a b => ⟨Template.identicalPoints "A" "B", [("A", a), ("B", b)]⟩
  | .collinear a b c => ⟨Template.collinear "A" "B" "C", [("A", a), ("B", b), ("C", c)]⟩
  | .parallel a b c d =>
    ⟨Template.parallel "A" "B" "C" "D", [("A", a), ("B", b), ("C", c), ("D", d)]⟩
  | .perpendicular a b c d =>
    ⟨Template.perpendicular "A" "B" "C" "D", [("A", a), ("B", b), ("C", c), ("D", d)]⟩
  | .congruent a b c d =>
    ⟨Template.congruentSegments "A" "B" "C" "D", [("A", a), ("B", b), ("C", c), ("D", d)]⟩
  | .concyclic a b c d =>
    ⟨Template.concyclic "A" "B" "C" "D", [("A", a), ("B", b), ("C", c), ("D", d)]⟩

end Relation

namespace Protocol

/-- The ways to meet the conditions of a step; lines and circles have none. -/
def alternatives (p : Protocol) (s : Step) : Except SetError (List Alternative) :=
  match s.construction with
  | .point rule => p.pointAlternatives s.label s.index rule
  | .set _ => .ok []
  | .statement relation => .ok [[relation.condition]]

theorem alternatives_of_point {p : Protocol} {s : Step} {rule : PointRule}
    (h : s.construction = .point rule) :
    p.alternatives s = p.pointAlternatives s.label s.index rule := by
  unfold alternatives
  rw [h]

theorem alternatives_of_statement {p : Protocol} {s : Step} {relation : Relation}
    (h : s.construction = .statement relation) : p.alternatives s = .ok [[relation.condition]] := by
  unfold alternatives
  rw [h]

end Protocol
end Planimetry
