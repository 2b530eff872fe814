/-
  RationalSpline.Space.Plane
  ──────────────────────────
  ORIENTED PLANES.

  A plane carries an orthonormal frame.  The second direction it is given is made
  orthogonal to the first.
-/
import RationalSpline.Space.Vector
import RationalSpline.Failure

namespace RationalSpline

/-- An oriented plane with an orthonormal frame. -/
structure Plane (α : Type) where
  /-- The point with plane coordinates `(0, 0)`. -/
  origin : Vec3 α
  /-- The direction of the first plane coordinate. -/
  xAxis : Vec3 α
  /-- The direction of the second plane coordinate. -/
  yAxis : Vec3 α
  /-- The direction orthogonal to the plane. -/
  normal : Vec3 α
  deriving Repr, DecidableEq

namespace Plane

/-- The plane in other numbers. -/
def map {α β : Type} (f : α → β) (plane : Plane α) : Plane β :=
  ⟨plane.origin.map f, plane.xAxis.map f, plane.yAxis.map f, plane.normal.map f⟩

variable {α : Type} [Scalar α]

/-- The plane of the first two coordinate axes. -/
def worldXY : Plane α := ⟨.zero, ⟨1, 0, 0⟩, ⟨0, 1, 0⟩, ⟨0, 0, 1⟩⟩

/-- The plane through a point along two directions. -/
def ofDirections [Analytic α] [Precision α] (origin x y : Vec3 α) :
    Except (Failure α) (Plane α) :=
  match x.normalize? with
  | none => .error (.invalidShape .planeXAxis)
  | some xAxis =>
      -- what the second direction has along the first is taken off
      match (y.sub (xAxis.scale (xAxis.dot y))).normalize? with
      | none => .error (.invalidShape .planeYAxis)
      | some yAxis => .ok ⟨origin, xAxis, yAxis, xAxis.cross yAxis⟩

/-- The point with plane coordinates `(u, v)`. -/
def pointAt (plane : Plane α) (u v : α) : Vec3 α :=
  (plane.origin.add (plane.xAxis.scale u)).add (plane.yAxis.scale v)

/-- The distance of a point from the plane, negative below it. -/
def signedDistance (plane : Plane α) (p : Vec3 α) : α := plane.normal.dot (p.sub plane.origin)

end Plane

end RationalSpline
