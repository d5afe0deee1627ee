import Planimetry.Polynomial.Basic

/-! Geometric conditions as polynomials in the coordinates of roles, each zero exactly where it holds. -/

namespace Planimetry

/-- A condition whose points are named by the role that they play. -/
abbrev Template := Polynomial

/-- The roles for which no point was given. -/
structure MissingRoles where
  roles : List Label
  deriving DecidableEq, Repr

namespace MissingRoles

def message (e : MissingRoles) : String :=
  "no point mapped to role label(s): " ++ ", ".intercalate e.roles

end MissingRoles

/-- A pair of coordinates, or of differences of coordinates. -/
structure Vector where
  x : Polynomial
  y : Polynomial

namespace Vector

instance : Add Vector := ⟨fun u v => ⟨u.x + v.x, u.y + v.y⟩⟩

instance : Sub Vector := ⟨fun u v => ⟨u.x - v.x, u.y - v.y⟩⟩

def scale (c : Rat) (u : Vector) : Vector := ⟨u.x.scale c, u.y.scale c⟩

def cross (u v : Vector) : Polynomial := u.x * v.y - u.y * v.x

def dot (u v : Vector) : Polynomial := u.x * v.x + u.y * v.y

def square (u : Vector) : Polynomial := u.dot u

end Vector

/-- The tangent of an oriented angle, as a numerator and a denominator. -/
structure Tangent where
  numerator : Template
  denominator : Template

namespace Template

/-- The role of the point under construction. -/
def own : Label := "0"

def coordinate (r : Label) (a : Axis) : Template := Polynomial.ofVariable (.placeholder r a)

def position (r : Label) : Vector := ⟨coordinate r .x, coordinate r .y⟩

/-- The vector from the first role to the second. -/
def between (a b : Label) : Vector := position b - position a

def squareDistance (a b : Label) : Template := (between a b).square

def collinear (a b c : Label) : Template := (between a b).cross (between a c)

def identicalPoints (a b : Label) : Template := squareDistance a b

def parallel (a b c d : Label) : Template := (between a b).cross (between c d)

def perpendicular (a b c d : Label) : Template := (between a b).dot (between c d)

def congruentSegments (a b c d : Label) : Template := squareDistance a b - squareDistance c d

/-- The point `p` is equally far from `a` and `b`. -/
def equidistant (p a b : Label) : Template := squareDistance p a - squareDistance p b

def onCircle (p center through : Label) : Template :=
  squareDistance p center - squareDistance through center

/-- The segment from `a` to `b` is seen from `p` under a right angle. -/
def onCircleWithDiameter (p a b : Label) : Template := (between a p).dot (between b p)

/-- The determinant of what is kept of each row, expanded by the first row. An entry that is zero is passed over. -/
def minor (keep : List Template → List Template) : List (List Template) → Template
  | [] => 1
  | [row] => (keep row).headD 0
  | row :: next :: rest =>
    (keep row).zipIdx.foldl (fun total e =>
      if e.1.isZero then total
      else
        let term := e.1 * minor (fun r => (keep r).eraseIdx e.2) (next :: rest)
        if e.2 % 2 = 0 then total + term else total - term) 0

/-- The determinant of a square matrix, given by its rows. -/
def determinant (rows : List (List Template)) : Template := minor id rows

/-- The determinant with rows `x² + y², x, y, 1` for four points. -/
def concyclic (a b c d : Label) : Template :=
  determinant ([a, b, c, d].map fun r => [(position r).square, coordinate r .x, coordinate r .y, 1])

/-- The two coordinates of the middle of `A` and `B`. -/
def midpoint : Template × Template :=
  let v := (position own).scale 2 - position "A" - position "B"
  (v.x, v.y)

/-- The image of `P` under the shift that takes `A` to `B`. -/
def shift : Template × Template :=
  let v := between "P" own - between "A" "B"
  (v.x, v.y)

/-- The image of `P` under the half turn about `O`. -/
def centralSymmetry : Template × Template :=
  let v := position own + position "P" - (position "O").scale 2
  (v.x, v.y)

/-- The image of `P` under the counter-clockwise quarter turn about `O`. -/
def quarterTurn : Template × Template :=
  let image := between "O" own
  let source := between "O" "P"
  (image.x + source.y, image.y - source.x)

/-- The reflection of `P` in the line `AB`: the middle of the chord lies on the line, and the
chord is perpendicular to it. -/
def reflection : Template × Template :=
  let middle := (position own + position "P").scale (1 / 2)
  ((between "A" "B").cross (middle - position "A"), (between "P" own).dot (between "A" "B"))

/-- The foot of the perpendicular from `P` to the line `AB`. -/
def foot : Template × Template := (collinear own "A" "B", perpendicular "P" own "A" "B")

/-- The point equally far from `A`, `B` and `C`. -/
def circleCenter : Template × Template := (equidistant own "A" "B", equidistant own "A" "C")

/-- A point on the first axis whose first coordinate is a tangent of sixty degrees. -/
def tangentOfSixty : Template × Template :=
  (coordinate own .x * coordinate own .x - Polynomial.constant 3, coordinate own .y)

def signedArea (a b c : Label) : Template := (collinear a b c).scale (1 / 2)

/-- `AB² + CB² - AC²`. -/
def pythagorasDifference (a b c : Label) : Template :=
  squareDistance a b + squareDistance c b - squareDistance a c

/-- The oriented angle from the ray `oa` to the ray `ob`. -/
def angleTangent (a o b : Label) : Tangent :=
  ⟨(between o a).cross (between o b), (between o a).dot (between o b)⟩

def tangentOfSum (s t : Tangent) : Tangent :=
  ⟨s.numerator * t.denominator + t.numerator * s.denominator,
    s.denominator * t.denominator - s.numerator * t.numerator⟩

/-- The ray from `O` through the new point makes with `OA` the angle `A1 O1 B1`. -/
def angleRay : Template :=
  let ray := angleTangent "A" "O" own
  let given := angleTangent "A1" "O1" "B1"
  ray.numerator * given.denominator - ray.denominator * given.numerator

/-- The angle from `OA` to the ray of the new point completes two given angles to one whose tangent
is the first coordinate of `T`. -/
def angleRayToSixty : Template :=
  let t := tangentOfSum
    (tangentOfSum (angleTangent "A1" "O1" "B1") (angleTangent "A2" "O2" "B2"))
    (angleTangent "A" "O" own)
  t.numerator - t.denominator * coordinate "T" .x

/-- The roles of a template, in ascending order. -/
def roles (t : Template) : List Label :=
  (t.vars.filterMap fun v => match v with
    | .placeholder r _ => some r
    | _ => none).eraseDups

/-- Picks the coordinate on an axis of the point that plays a role. -/
def coordinate? (coordinates : Label → Option (α × α)) (role : Label) (axis : Axis) : Option α :=
  (coordinates role).map fun c => match axis with
    | .x => c.1
    | .y => c.2

/-- Whether each role has a point. -/
def checkRoles (coordinates : Label → Option (α × α)) (t : Template) : Except MissingRoles Unit :=
  match t.roles.filter fun r => (coordinates r).isNone with
  | [] => .ok ()
  | missing => .error ⟨missing⟩

/-- Puts the coordinates of a point in place of each role. -/
def instantiate (coordinates : Label → Option (Variable × Variable)) (t : Template) :
    Except MissingRoles Polynomial := do
  t.checkRoles coordinates
  return t.rename fun v => match v with
    | .placeholder r a => (coordinate? coordinates r a).getD v
    | _ => v

/-- The value where each role is played by a point with the given coordinates. -/
def value (coordinates : Label → Option (Rat × Rat)) (t : Template) : Except MissingRoles Rat := do
  t.checkRoles coordinates
  return t.eval fun v => match v with
    | .placeholder r a => (coordinate? coordinates r a).getD 0
    | _ => 0

/-- The polynomials of a template called by its name, for the given roles. -/
def named? (name : String) (roles : List Label) : Option (List Template) :=
  let pair (p : Template × Template) := some [p.1, p.2]
  let tangent (t : Tangent) := some [t.numerator, t.denominator]
  match name, roles with
  | "collinear", [a, b, c] => some [collinear a b c]
  | "identical_points", [a, b] => some [identicalPoints a b]
  | "parallel", [a, b, c, d] => some [parallel a b c d]
  | "perpendicular", [a, b, c, d] => some [perpendicular a b c d]
  | "congruent_segments", [a, b, c, d] => some [congruentSegments a b c d]
  | "equidistant", [p, a, b] => some [equidistant p a b]
  | "on_circle", [p, o, a] => some [onCircle p o a]
  | "on_circle_with_diameter", [p, a, b] => some [onCircleWithDiameter p a b]
  | "concyclic", [a, b, c, d] => some [concyclic a b c d]
  | "midpoint", [] => pair midpoint
  | "translation", [] => pair shift
  | "central_symmetry", [] => pair centralSymmetry
  | "rotation_90", [] => pair quarterTurn
  | "reflection", [] => pair reflection
  | "tangent_of_60_deg", [] => pair tangentOfSixty
  | "signed_area", [a, b, c] => some [signedArea a b c]
  | "pythagoras_difference", [a, b, c] => some [pythagorasDifference a b c]
  | "angle_tangent", [a, o, b] => tangent (angleTangent a o b)
  | "tangent_of_sum", [a, o, b, c, p, d] =>
    tangent (tangentOfSum (angleTangent a o b) (angleTangent c p d))
  | "tangent_of_sum_of_three", [a, o, b, c, p, d, e, q, f] =>
    tangent (tangentOfSum (tangentOfSum (angleTangent a o b) (angleTangent c p d))
      (angleTangent e q f))
  | "angle_ray", [] => some [angleRay]
  | "angle_ray_to_60", [] => some [angleRayToSixty]
  | "zero", [] => some [0]
  | _, _ => none

end Template
end Planimetry
