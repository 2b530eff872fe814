/-
  RationalSpline.Curve.Elevation
  ──────────────────────────────
  RAISING THE ORDER OF A CURVE.
-/
import RationalSpline.Curve.KnotEditing
import RationalSpline.Spline.Elevation

namespace RationalSpline.Curve

/-- The highest order a curve is raised to. -/
def maxOrder : Nat := 12

variable {α : Type} [Scalar α] [Precision α]

/-- The same curve, clamped, in a higher order; its own order changes nothing. -/
def raiseOrder (c : Curve α) (order : Nat) : Except (Failure α) (Curve α) :=
  if order < c.order ∨ maxOrder < order then
    .error (.invalidShape (.orderChange c.order order))
  else if order = c.order then .ok c
  else do
    c.validate
    let clamped ← c.clampEnds
    .ok (clamped.withSpline (clamped.spline.elevate (order - c.order)))

end RationalSpline.Curve
