import Planimetry.Variable

/-! The kinds of construction steps: the roles that a kind takes, and how a step of it is described. -/

namespace Planimetry

inductive Category where
  | point
  | line
  | circle
  | statement
  deriving DecidableEq, Repr, Inhabited

/-- What may play a role: objects of one category, or lines and circles alike. -/
inductive Expectation where
  | exactly (category : Category)
  | set
  deriving DecidableEq, Repr

/-- A part of a description: fixed text, the label of the step, or the label that plays a role. -/
inductive Piece where
  | text (s : String)
  | own
  | role (name : Label)
  deriving DecidableEq, Repr

inductive Kind where
  | freePoint
  | midpoint
  | randomPointOnLine
  | randomPointOnCircle
  | intersectionPoint
  | footPoint
  | shiftedPoint
  | rotatedPoint
  | centrallySymmetricPoint
  | reflectedPoint
  | circleCenter
  | angleOfSixty
  | lineThroughTwoPoints
  | parallelLine
  | perpendicularLine
  | perpendicularBisector
  | angleRay
  | angleRayToSixty
  | circleWithCenterAndPoint
  | circleWithDiameter
  | circumscribedCircle
  | trivial
  | identicalPoints
  | collinearPoints
  | parallelLines
  | perpendicularLines
  | congruentSegments
  | concyclicPoints
  deriving DecidableEq, Repr

/-- What is common to all steps of a kind. The lists of `members`, `onSets` and `distinct` name
roles: the points that lie on a new set, the sets that a new point lies on, and roles that different
objects must play. -/
structure KindSpec where
  name : String
  category : Category
  roles : List (Label × Expectation)
  description : List Piece
  freeCoordinates : Nat := 0
  members : List Label := []
  onSets : List Label := []
  distinct : List Label := []

namespace Category

def name : Category → String
  | .point => "point"
  | .line => "line"
  | .circle => "circle"
  | .statement => "statement"

def all : List Category := [.point, .line, .circle, .statement]

end Category

namespace Expectation

def name : Expectation → String
  | .exactly c => c.name
  | .set => "set"

def accepts : Expectation → Category → Bool
  | .exactly c, d => c == d
  | .set, d => d == .line || d == .circle

end Expectation

namespace Piece

/-- The piece as it stands in a pattern, where a name in braces is to be filled in. -/
def pattern : Piece → String
  | .text s => s
  | .own => "\x7blabel\x7d"
  | .role r => "\x7b" ++ r ++ "\x7d"

def fill (label : Label) (argument : Label → Label) : Piece → String
  | .text s => s
  | .own => label
  | .role r => argument r

end Piece

namespace Kind

def all : List Kind :=
  [.freePoint, .midpoint, .randomPointOnLine, .randomPointOnCircle, .intersectionPoint, .footPoint,
    .shiftedPoint, .rotatedPoint, .centrallySymmetricPoint, .reflectedPoint, .circleCenter,
    .angleOfSixty, .lineThroughTwoPoints, .parallelLine, .perpendicularLine,
    .perpendicularBisector, .angleRay, .angleRayToSixty, .circleWithCenterAndPoint,
    .circleWithDiameter, .circumscribedCircle, .trivial, .identicalPoints, .collinearPoints,
    .parallelLines, .perpendicularLines, .congruentSegments, .concyclicPoints]

/-- Roles that points play. -/
def points (roles : List Label) : List (Label × Expectation) :=
  roles.map fun r => (r, .exactly .point)

def spec : Kind → KindSpec
  | .freePoint =>
    { name := "free_point", category := .point, roles := []
      description := [.text "Free point ", .own]
      freeCoordinates := 2 }
  | .midpoint =>
    { name := "midpoint", category := .point, roles := points ["a", "b"]
      description := [.text "Midpoint ", .own, .text " of segment ", .role "a", .role "b"]
      distinct := ["a", "b"] }
  | .randomPointOnLine =>
    { name := "random_point_on_line", category := .point, roles := [("line", .exactly .line)]
      description := [.text "Random point ", .own, .text " from line ", .role "line"]
      freeCoordinates := 1, onSets := ["line"] }
  | .randomPointOnCircle =>
    { name := "random_point_on_circle", category := .point, roles := [("circle", .exactly .circle)]
      description := [.text "Random point ", .own, .text " from circle ", .role "circle"]
      freeCoordinates := 1, onSets := ["circle"] }
  | .intersectionPoint =>
    { name := "intersection_point", category := .point, roles := [("first", .set), ("second", .set)]
      description :=
        [.text "Intersection point ", .own, .text " of ", .role "first", .text " and ", .role "second"]
      onSets := ["first", "second"], distinct := ["first", "second"] }
  | .footPoint =>
    { name := "foot_point", category := .point, roles := points ["point", "a", "b"]
      description :=
        [.text "Foot ", .own, .text " of perpendicular from ", .role "point", .text " to line ",
          .role "a", .role "b"]
      distinct := ["a", "b"] }
  | .shiftedPoint =>
    { name := "translated_point", category := .point, roles := points ["point", "a", "b"]
      description :=
        [.text "Point ", .own, .text " as image of ", .role "point",
          .text " under translation by vector ", .role "a", .role "b"] }
  | .rotatedPoint =>
    { name := "rotated_point_90", category := .point, roles := points ["point", "center"]
      description :=
        [.text "Point ", .own, .text " as image of ", .role "point",
          .text " under rotation by 90 degrees around ", .role "center"] }
  | .centrallySymmetricPoint =>
    { name := "centrally_symmetric_point", category := .point, roles := points ["point", "center"]
      description :=
        [.text "Point ", .own, .text " symmetric to ", .role "point", .text " with respect to ",
          .role "center"] }
  | .reflectedPoint =>
    { name := "reflected_point", category := .point, roles := points ["point", "a", "b"]
      description :=
        [.text "Point ", .own, .text " as reflection of ", .role "point", .text " in line ",
          .role "a", .role "b"]
      distinct := ["a", "b"] }
  | .circleCenter =>
    { name := "circle_center", category := .point, roles := points ["a", "b", "c"]
      description :=
        [.text "Center ", .own, .text " of circle through ", .role "a", .text ", ", .role "b",
          .text " and ", .role "c"]
      distinct := ["a", "b", "c"] }
  | .angleOfSixty =>
    { name := "angle_of_60_deg", category := .point, roles := []
      description := [.text "Parametric point ", .own, .text " of angle of 60 degrees"] }
  | .lineThroughTwoPoints =>
    { name := "line_through_two_points", category := .line, roles := points ["a", "b"]
      description := [.text "Line ", .own, .text " through points ", .role "a", .text " and ", .role "b"]
      members := ["a", "b"], distinct := ["a", "b"] }
  | .parallelLine =>
    { name := "parallel_line", category := .line
      roles := [("point", .exactly .point), ("line", .exactly .line)]
      description :=
        [.text "Line ", .own, .text " through point ", .role "point", .text " parallel with line ",
          .role "line"]
      members := ["point"] }
  | .perpendicularLine =>
    { name := "perpendicular_line", category := .line
      roles := [("point", .exactly .point), ("line", .exactly .line)]
      description :=
        [.text "Line ", .own, .text " through point ", .role "point",
          .text " perpendicular to line ", .role "line"]
      members := ["point"] }
  | .perpendicularBisector =>
    { name := "perpendicular_bisector", category := .line, roles := points ["a", "b"]
      description :=
        [.text "Perpendicular bisector ", .own, .text " of segment ", .role "a", .role "b"]
      distinct := ["a", "b"] }
  | .angleRay =>
    { name := "angle_ray", category := .line, roles := points ["a", "vertex", "a1", "o1", "b1"]
      description :=
        [.text "Angle ray ", .own, .text " from ", .role "vertex", .text " making with ray ",
          .role "vertex", .role "a", .text " the angle ", .role "a1", .role "o1", .role "b1"]
      members := ["vertex"], distinct := ["a", "vertex"] }
  | .angleRayToSixty =>
    { name := "angle_ray_to_60", category := .line
      roles := points ["a", "vertex", "a1", "o1", "b1", "a2", "o2", "b2", "angle"]
      description :=
        [.text "Angle ray ", .own, .text " from ", .role "vertex", .text " completing angles ",
          .role "a1", .role "o1", .role "b1", .text " and ", .role "a2", .role "o2", .role "b2",
          .text " to 60 degrees from ray ", .role "vertex", .role "a"]
      members := ["vertex"], distinct := ["a", "vertex"] }
  | .circleWithCenterAndPoint =>
    { name := "circle_with_center_and_point", category := .circle
      roles := points ["center", "through"]
      description :=
        [.text "Circle ", .own, .text " with center ", .role "center", .text " and through point ",
          .role "through"]
      members := ["through"], distinct := ["center", "through"] }
  | .circleWithDiameter =>
    { name := "circle_with_diameter", category := .circle, roles := points ["a", "b"]
      description := [.text "Circle ", .own, .text " with diameter ", .role "a", .role "b"]
      members := ["a", "b"], distinct := ["a", "b"] }
  | .circumscribedCircle =>
    { name := "circumscribed_circle", category := .circle, roles := points ["a", "b", "c"]
      description :=
        [.text "Circle ", .own, .text " through points ", .role "a", .text ", ", .role "b",
          .text " and ", .role "c"]
      members := ["a", "b", "c"], distinct := ["a", "b", "c"] }
  | .trivial =>
    { name := "true", category := .statement, roles := [], description := [.text "True"] }
  | .identicalPoints =>
    { name := "identical_points", category := .statement, roles := points ["A", "B"]
      description := [.text "Points ", .role "A", .text " and ", .role "B", .text " are identical"] }
  | .collinearPoints =>
    { name := "collinear_points", category := .statement, roles := points ["A", "B", "C"]
      description :=
        [.text "Points ", .role "A", .text ", ", .role "B", .text " and ", .role "C",
          .text " are collinear"] }
  | .parallelLines =>
    { name := "parallel_lines", category := .statement, roles := points ["A", "B", "C", "D"]
      description :=
        [.text "Lines ", .role "A", .role "B", .text " and ", .role "C", .role "D",
          .text " are parallel"] }
  | .perpendicularLines =>
    { name := "perpendicular_lines", category := .statement, roles := points ["A", "B", "C", "D"]
      description :=
        [.text "Lines ", .role "A", .role "B", .text " and ", .role "C", .role "D",
          .text " are perpendicular"] }
  | .congruentSegments =>
    { name := "congruent_segments", category := .statement, roles := points ["A", "B", "C", "D"]
      description :=
        [.text "Segments ", .role "A", .role "B", .text " and ", .role "C", .role "D",
          .text " have equal length"] }
  | .concyclicPoints =>
    { name := "concyclic_points", category := .statement, roles := points ["A", "B", "C", "D"]
      description :=
        [.text "Points ", .role "A", .text ", ", .role "B", .text ", ", .role "C", .text " and ",
          .role "D", .text " are concyclic"] }

def name (k : Kind) : String := k.spec.name

def category (k : Kind) : Category := k.spec.category

def roleNames (k : Kind) : List Label := k.spec.roles.map Prod.fst

def ofName? (name : String) : Option Kind := all.find? fun k => k.name == name

/-- The description with the names of the roles in braces. -/
def pattern (k : Kind) : String := String.join (k.spec.description.map Piece.pattern)

/-- Whether points and statements of the kind have conditions of their own. -/
def hasConditions (k : Kind) : Bool :=
  match k.category with
  | .point => k != .freePoint
  | .statement => true
  | _ => false

/-- Whether a point that lies on a step of the kind is bound by a condition. -/
def hasMembership (k : Kind) : Bool := k.category == .line || k.category == .circle

/-- Whether a step of the kind is checked beyond its roles. -/
def isChecked (k : Kind) : Bool :=
  k == .parallelLine || k == .perpendicularLine || k == .angleRayToSixty

end Kind
end Planimetry
