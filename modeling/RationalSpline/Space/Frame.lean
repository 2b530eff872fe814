/-
  RationalSpline.Space.Frame
  ──────────────────────────
  MOVING FRAMES.

  A frame has a position, a tangent, and a normal plane spanned by two directions.
-/
import RationalSpline.Space.Vector

namespace RationalSpline

/-- A frame at a point of a space curve. -/
structure Frame (α : Type) where
  /-- The point of the curve. -/
  position : Vec3 α
  /-- The direction of the curve. -/
  tangent : Vec3 α
  /-- The first direction of the normal plane. -/
  normal : Vec3 α
  /-- The second direction of the normal plane. -/
  binormal : Vec3 α
  deriving Repr, DecidableEq

namespace Frame

variable {α : Type} [Scalar α]

/-- The point of the normal plane with coordinates `(x, y)`. -/
def pointAt (f : Frame α) (x y : α) : Vec3 α :=
  (f.position.add (f.normal.scale x)).add (f.binormal.scale y)

/-- The coordinates of the projection of a point on the normal plane. -/
def project (f : Frame α) (p : Vec3 α) : α × α :=
  let v := p.sub f.position
  (v.dot f.normal, v.dot f.binormal)

end Frame

end RationalSpline
