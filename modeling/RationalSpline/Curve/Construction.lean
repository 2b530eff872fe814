/-
  RationalSpline.Curve.Construction
  ─────────────────────────────────
  CURVES FROM CONTROL POINTS.

  Each constructor checks the counts and sizes it was given, builds the curve and
  lets the validity check decide.
-/
import RationalSpline.Curve.Validity
import RationalSpline.KnotVector.Uniform

namespace RationalSpline

variable {α : Type} [Scalar α]

/-! ## §1. Checks of arguments. -/

/-- A dimension, an order and a number of control points that fit together. -/
def checkShape (dimension order count : Nat) : Except (Failure α) Unit :=
  if dimension < 1 then .error (.invalidShape .dimensionTooSmall)
  else if order < 2 then .error (.invalidShape (.orderTooSmall order))
  else if count < order then .error (.invalidShape (.pointsTooFew count order))
  else .ok ()

/-- Every point has the given number of coordinates. -/
def checkPoints (dimension : Nat) (points : List (Point α)) : Except (Failure α) Unit :=
  match points.findIdx? fun p => p.length != dimension with
  | some i => .error (.invalidShape (.pointSizeAt i (points.getD i []).length dimension))
  | none => .ok ()

/-- A knot spacing is positive and finite. -/
def checkSpacing [Precision α] (delta : α) : Except (Failure α) Unit :=
  if 0 < delta ∧ Precision.isFinite delta then .ok ()
  else .error (.invalidShape (.knotSpacing delta))

/-- An index addresses one of `length` entries. -/
def checkIndex (index length : Nat) : Except (Failure α) Unit :=
  if index < length then .ok () else .error (.invalidIndex index length)

namespace Curve

/-! ## §2. Constructors. -/

/-- A curve of the given shape with all control points at the origin, of weight 1,
and clamped knots of spacing 1. -/
def create (dimension : Nat) (rational : Bool) (order count : Nat) :
    Except (Failure α) (Curve α) := do
  checkShape dimension order count
  checkStorage dimension
  checkStorage (count + order)
  let origin : Point α := Point.zero dimension
  .ok
    { dimension, order
      points :=
        if rational then .homogeneous (List.replicate count (origin ++ [1]))
        else .cartesian (List.replicate count origin)
      knots := KnotVector.clampedUniform order count 1 }

variable [Precision α]

/-- A valid curve from its parts. -/
def ofParts (dimension order : Nat) (points : ControlPoints α) (knots : List α) :
    Except (Failure α) (Curve α) :=
  admitted { dimension, order, points, knots := ⟨knots⟩ }

/-- A clamped polynomial curve with the given control points. -/
def clampedUniform (dimension order : Nat) (points : List (Point α)) (delta : α) :
    Except (Failure α) (Curve α) := do
  checkShape dimension order points.length
  checkPoints dimension points
  checkSpacing delta
  validated
    { dimension, order
      points := .cartesian points
      knots := KnotVector.clampedUniform order points.length delta }

/-- A closed polynomial curve: the first `order - 1` control points come again at
the end. -/
def periodicUniform (dimension order : Nat) (points : List (Point α)) (delta : α) :
    Except (Failure α) (Curve α) := do
  if dimension < 1 ∨ order < 2 then
    .error (.invalidShape (.periodicTooSmall dimension order))
  else if points.length < max 2 (order - 1) then
    .error (.invalidShape (.periodicPointsTooFew points.length order))
  else
    checkPoints dimension points
    checkSpacing delta
    let count := points.length + order - 1
    validated
      { dimension, order
        points := .cartesian
          ((List.range count).map fun i => points.getD (i % points.length) [])
        knots := KnotVector.periodicUniform order count delta }

end Curve

end RationalSpline
