/-
  RationalSpline.Curve.Append
  ───────────────────────────
  JOINING TWO CURVES.

  Both curves are brought to one order, given weights if either has them, and
  clamped.  The tail is scaled to the weight of the head at the joint and moved to
  start where the head ends; the two control points at the joint are averaged.
-/
import RationalSpline.Curve.Elevation
import RationalSpline.Curve.Reparameterization

namespace RationalSpline.Curve

variable {α : Type} [Scalar α]

/-- Both curves with weights, if either has them. -/
def matchRational (head tail : Curve α) : Curve α × Curve α :=
  if head.isRational || tail.isRational then (head.makeRational, tail.makeRational)
  else (head, tail)

/-- The tail scaled to the weight of the head at the joint and moved to its end. -/
def attach (head tail : Curve α) : Curve α :=
  -- a common factor of all vectors changes no location
  let tail :=
    if tail.isRational then
      tail.scaleVectors (head.points.weight (head.pointCount - 1) / tail.points.weight 0)
    else tail
  let finish := head.domain.2
  let (t0, t1) := tail.domain
  { tail with knots := tail.knots.remap (t0, t1) (finish, finish + t1 - t0) }

/-- One curve of two clamped curves of one order, the second attached to the first. -/
def splice (head tail : Curve α) : Curve α :=
  let joint := Point.scale
    (Point.add (head.points.vectors.getLastD []) (tail.points.vectors.headD [])) Scalar.half
  { head with
    points := head.points.withVectors
      (head.points.vectors.dropLast ++ joint :: tail.points.vectors.tail)
    -- the joint is already an end knot of the head
    knots := ⟨head.knots.values ++ tail.knots.values.drop (head.order - 1)⟩ }

/-- The head, then the tail. -/
def append [Precision α] (head tail : Curve α) : Except (Failure α) (Curve α) := do
  if head.dimension ≠ tail.dimension then
    .error (.invalidShape (.appendedDimension tail.dimension head.dimension))
  else
    head.validate
    tail.validate
    let order := max head.order tail.order
    let raisedHead ← head.raiseOrder order
    let raisedTail ← tail.raiseOrder order
    let (head, tail) := matchRational raisedHead raisedTail
    let head ← head.clampEnds
    let tail ← tail.clampEnds
    .ok (splice head (attach head tail))

end RationalSpline.Curve
