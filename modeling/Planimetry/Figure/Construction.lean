import Planimetry.Figure.Kind

/-! Constructions: how a point, line, circle or statement is given by objects constructed before it. -/

namespace Planimetry

/-- How a point is constructed. -/
inductive PointRule where
  | free
  | midpoint (a b : Label)
  | onLine (line : Label)
  | onCircle (circle : Label)
  | intersection (first second : Label)
  | foot (point a b : Label)
  | shifted (point a b : Label)
  | rotated (point center : Label)
  | symmetric (point center : Label)
  | reflected (point a b : Label)
  | circleCenter (a b c : Label)
  | angleOfSixty
  deriving DecidableEq, Repr

/-- How a line or a circle is constructed. -/
inductive Locus where
  | lineThrough (a b : Label)
  | parallel (point line : Label)
  | perpendicular (point line : Label)
  | bisector (a b : Label)
  | angleRay (a vertex a1 o1 b1 : Label)
  | angleRayToSixty (a vertex a1 o1 b1 a2 o2 b2 angle : Label)
  | circleThrough (center through : Label)
  | circleWithDiameter (a b : Label)
  | circumscribed (a b c : Label)
  deriving DecidableEq, Repr

/-- What a statement claims of points. -/
inductive Relation where
  | trivial
  | identical (a b : Label)
  | collinear (a b c : Label)
  | parallel (a b c d : Label)
  | perpendicular (a b c d : Label)
  | congruent (a b c d : Label)
  | concyclic (a b c d : Label)
  deriving DecidableEq, Repr

inductive Construction where
  | point (rule : PointRule)
  | set (locus : Locus)
  | statement (relation : Relation)
  deriving DecidableEq, Repr

namespace Construction

def kind : Construction → Kind
  | .point .free => .freePoint
  | .point (.midpoint ..) => .midpoint
  | .point (.onLine ..) => .randomPointOnLine
  | .point (.onCircle ..) => .randomPointOnCircle
  | .point (.intersection ..) => .intersectionPoint
  | .point (.foot ..) => .footPoint
  | .point (.shifted ..) => .shiftedPoint
  | .point (.rotated ..) => .rotatedPoint
  | .point (.symmetric ..) => .centrallySymmetricPoint
  | .point (.reflected ..) => .reflectedPoint
  | .point (.circleCenter ..) => .circleCenter
  | .point .angleOfSixty => .angleOfSixty
  | .set (.lineThrough ..) => .lineThroughTwoPoints
  | .set (.parallel ..) => .parallelLine
  | .set (.perpendicular ..) => .perpendicularLine
  | .set (.bisector ..) => .perpendicularBisector
  | .set (.angleRay ..) => .angleRay
  | .set (.angleRayToSixty ..) => .angleRayToSixty
  | .set (.circleThrough ..) => .circleWithCenterAndPoint
  | .set (.circleWithDiameter ..) => .circleWithDiameter
  | .set (.circumscribed ..) => .circumscribedCircle
  | .statement .trivial => .trivial
  | .statement (.identical ..) => .identicalPoints
  | .statement (.collinear ..) => .collinearPoints
  | .statement (.parallel ..) => .parallelLines
  | .statement (.perpendicular ..) => .perpendicularLines
  | .statement (.congruent ..) => .congruentSegments
  | .statement (.concyclic ..) => .concyclicPoints

/-- The labels that play the roles of the kind, in the order of the roles. -/
def arguments : Construction → List Label
  | .point .free => []
  | .point (.midpoint a b) => [a, b]
  | .point (.onLine l) => [l]
  | .point (.onCircle c) => [c]
  | .point (.intersection l m) => [l, m]
  | .point (.foot p a b) => [p, a, b]
  | .point (.shifted p a b) => [p, a, b]
  | .point (.rotated p o) => [p, o]
  | .point (.symmetric p o) => [p, o]
  | .point (.reflected p a b) => [p, a, b]
  | .point (.circleCenter a b c) => [a, b, c]
  | .point .angleOfSixty => []
  | .set (.lineThrough a b) => [a, b]
  | .set (.parallel p l) => [p, l]
  | .set (.perpendicular p l) => [p, l]
  | .set (.bisector a b) => [a, b]
  | .set (.angleRay a v a1 o1 b1) => [a, v, a1, o1, b1]
  | .set (.angleRayToSixty a v a1 o1 b1 a2 o2 b2 t) => [a, v, a1, o1, b1, a2, o2, b2, t]
  | .set (.circleThrough o a) => [o, a]
  | .set (.circleWithDiameter a b) => [a, b]
  | .set (.circumscribed a b c) => [a, b, c]
  | .statement .trivial => []
  | .statement (.identical a b) => [a, b]
  | .statement (.collinear a b c) => [a, b, c]
  | .statement (.parallel a b c d) => [a, b, c, d]
  | .statement (.perpendicular a b c d) => [a, b, c, d]
  | .statement (.congruent a b c d) => [a, b, c, d]
  | .statement (.concyclic a b c d) => [a, b, c, d]

/-- The construction of a kind in which each role is played as given. -/
def ofKind (k : Kind) (r : Label → Label) : Construction :=
  match k with
  | .freePoint => .point .free
  | .midpoint => .point (.midpoint (r "a") (r "b"))
  | .randomPointOnLine => .point (.onLine (r "line"))
  | .randomPointOnCircle => .point (.onCircle (r "circle"))
  | .intersectionPoint => .point (.intersection (r "first") (r "second"))
  | .footPoint => .point (.foot (r "point") (r "a") (r "b"))
  | .shiftedPoint => .point (.shifted (r "point") (r "a") (r "b"))
  | .rotatedPoint => .point (.rotated (r "point") (r "center"))
  | .centrallySymmetricPoint => .point (.symmetric (r "point") (r "center"))
  | .reflectedPoint => .point (.reflected (r "point") (r "a") (r "b"))
  | .circleCenter => .point (.circleCenter (r "a") (r "b") (r "c"))
  | .angleOfSixty => .point .angleOfSixty
  | .lineThroughTwoPoints => .set (.lineThrough (r "a") (r "b"))
  | .parallelLine => .set (.parallel (r "point") (r "line"))
  | .perpendicularLine => .set (.perpendicular (r "point") (r "line"))
  | .perpendicularBisector => .set (.bisector (r "a") (r "b"))
  | .angleRay => .set (.angleRay (r "a") (r "vertex") (r "a1") (r "o1") (r "b1"))
  | .angleRayToSixty =>
    .set (.angleRayToSixty (r "a") (r "vertex") (r "a1") (r "o1") (r "b1") (r "a2") (r "o2")
      (r "b2") (r "angle"))
  | .circleWithCenterAndPoint => .set (.circleThrough (r "center") (r "through"))
  | .circleWithDiameter => .set (.circleWithDiameter (r "a") (r "b"))
  | .circumscribedCircle => .set (.circumscribed (r "a") (r "b") (r "c"))
  | .trivial => .statement .trivial
  | .identicalPoints => .statement (.identical (r "A") (r "B"))
  | .collinearPoints => .statement (.collinear (r "A") (r "B") (r "C"))
  | .parallelLines => .statement (.parallel (r "A") (r "B") (r "C") (r "D"))
  | .perpendicularLines => .statement (.perpendicular (r "A") (r "B") (r "C") (r "D"))
  | .congruentSegments => .statement (.congruent (r "A") (r "B") (r "C") (r "D"))
  | .concyclicPoints => .statement (.concyclic (r "A") (r "B") (r "C") (r "D"))

def category (c : Construction) : Category := c.kind.category

/-- The label that plays a role. -/
def argument (c : Construction) (role : Label) : Label :=
  ((c.kind.roleNames.zip c.arguments).lookup role).getD ""

/-- The labels that play roles, each once. -/
def dependencies (c : Construction) : List Label := c.arguments.eraseDups

def describe (label : Label) (c : Construction) : String :=
  String.join (c.kind.spec.description.map (Piece.fill label c.argument))

end Construction
end Planimetry
