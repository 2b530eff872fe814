/-
  RationalSpline.Curve.Weights
  ────────────────────────────
  CONTROL POINTS AND WEIGHTS.

  Seen from outside, a curve is a list of pairs of a location and a weight.  A
  curve without weights becomes rational when a weight other than 1 is written,
  and gives its weights up only where they all agree.
-/
import RationalSpline.Curve.Construction

namespace RationalSpline

variable {α : Type} [Scalar α] [Precision α]

/-- A weight is positive and finite. -/
def checkWeight (w : α) : Except (Failure α) Unit :=
  if Scalar.isWeight w then .ok () else .error (.outOfDomain (.weightRange w))

/-- A point has the given number of coordinates. -/
def checkSize (p : Point α) (size : Nat) : Except (Failure α) Unit :=
  if p.length = size then .ok () else .error (.invalidShape (.pointSize p.length size))

namespace Curve

/-- The curve with one stored vector replaced. -/
def store (c : Curve α) (index : Nat) (p : Point α) : Curve α :=
  { c with points := c.points.set index p }

/-- The curve with a control point moved; its weight stays. -/
def setLocation (c : Curve α) (index : Nat) (p : Point α) : Except (Failure α) (Curve α) := do
  checkIndex index c.pointCount
  checkSize p c.dimension
  .ok (c.store index
    (if c.isRational then Point.homogenize p (c.points.weight index) else p))

/-- The curve with a control point given by its homogeneous form. -/
def setHomogeneous (c : Curve α) (index : Nat) (p : Point α) :
    Except (Failure α) (Curve α) := do
  checkIndex index c.pointCount
  checkSize p (c.dimension + 1)
  checkWeight p.weight
  if c.isRational then .ok (c.store index p)
  else if p.weight == 1 then .ok (c.store index (p.take c.dimension))
  else .ok (c.makeRational.store index p)

/-- The curve with a weight changed; the control point stays where it is. -/
def setWeight (c : Curve α) (index : Nat) (w : α) : Except (Failure α) (Curve α) := do
  checkIndex index c.pointCount
  checkWeight w
  -- a weight of 1 needs no place to be stored
  if !c.isRational && w == 1 then .ok c
  else
    let c := c.makeRational
    .ok (c.store index (Point.homogenize (c.points.location index) w))

/-- The curve without weights, if they all agree within the zero tolerance. -/
def makeNonRational (c : Curve α) : Except (Failure α) (Curve α) :=
  match c.points with
  | .cartesian _ => .ok c
  | .homogeneous points =>
      let first := c.points.weight 0
      if c.points.weights.any fun w =>
          decide (Scalar.zeroTolerance * first < Scalar.abs (w - first)) then
        .error (.outOfDomain .weightsDiffer)
      else .ok { c with points := .cartesian (points.map Point.dehomogenize) }

/-- The curve with all control points at the origin, of weight 1. -/
def zeroPoints (c : Curve α) : Curve α :=
  let origin := Point.zero c.dimension
  { c with
    points := c.points.withVectors
      (c.points.vectors.map fun _ => if c.isRational then origin ++ [1] else origin) }

end Curve

end RationalSpline
