/-
  RationalSpline.Primitive.Ellipse
  ────────────────────────────────
  ELLIPSES AS RATIONAL CURVES.

  Four quarter arcs of degree 2.  The control points are the corners and the side
  midpoints of the circumscribed rectangle; the corners weigh `1 / √2`.
-/
import RationalSpline.Curve.Construction
import RationalSpline.Space.Plane

namespace RationalSpline

/-- An ellipse around the origin of a plane. -/
structure Ellipse (α : Type) where
  /-- The plane of the ellipse. -/
  plane : Plane α
  /-- The radius along the first axis of the plane. -/
  radiusX : α
  /-- The radius along the second axis of the plane. -/
  radiusY : α
  deriving Repr, DecidableEq

namespace Ellipse

variable {α : Type} [Scalar α] [Analytic α] [Precision α]

/-- A circle in a plane. -/
def circle (plane : Plane α) (radius : α) : Ellipse α := ⟨plane, radius, radius⟩

/-- The control polygon of the unit circle, each point with its weight. -/
def polygon : List (α × α × α) :=
  let w : α := Analytic.invSqrtTwo
  [(1, 0, 1), (1, 1, w), (0, 1, 1), (-1, 1, w), (-1, 0, 1), (-1, -1, w), (0, -1, 1),
    (1, -1, w), (1, 0, 1)]

/-- The quarter turns at which the arcs meet, in compact form. -/
def quarterKnots : List α :=
  [0, 0, 1, 1, 2, 2, 3, 3, 4, 4].map fun (k : Nat) => (k : α) * Analytic.halfPi

/-- A homogeneous control point of the ellipse. -/
def controlPoint (e : Ellipse α) (x y w : α) : Point α :=
  let p := e.plane.pointAt (x * e.radiusX) (y * e.radiusY)
  [p.x * w, p.y * w, p.z * w, w]

/-- The ellipse as a curve on `[0, 2π]`. -/
def toCurve (e : Ellipse α) : Except (Failure α) (Curve α) :=
  if Scalar.isWeight e.radiusX && Scalar.isWeight e.radiusY then
    Curve.ofParts 3 3 (.homogeneous (polygon.map fun (x, y, w) => e.controlPoint x y w))
      quarterKnots
  else .error (.invalidShape (.ellipseRadii e.radiusX e.radiusY))

end Ellipse

end RationalSpline
