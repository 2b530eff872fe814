/-
  RationalSpline.Journal
  ──────────────────────
  WHAT IS REPORTED ABOUT SUCCESSFUL WORK.

  An event names what was done; its line is written for a log.
-/
import RationalSpline.Curve.Edit
import RationalSpline.Curve.Polyline

namespace RationalSpline

/-- Something worth a line in a log. -/
inductive Event (α : Type) where
  | insertedKnot (knot : α) (times : Nat)
  | removedKnots (index0 index1 : Nat)
  | raisedDegree (degree : Nat)
  | fittedPolyline (degree : Nat) (closed : Bool) (count : Nat)
  | fittedSpiral (count : Nat)
  deriving Repr

namespace Event

variable {α : Type}

/-- The line of an event: its level, then what was done. -/
def line (text : α → String) : Event α → String
  | .insertedKnot knot times => s!"debug: inserted knot {text knot} {times} times"
  | .removedKnots index0 index1 => s!"debug: removed knots {index0}..{index1}"
  | .raisedDegree degree => s!"debug: raised curve degree to {degree}"
  | .fittedPolyline degree closed count =>
      let kind := if closed then "periodic" else "clamped"
      s!"debug: created degree {degree} {kind} curve through {count} points"
  | .fittedSpiral count => s!"debug: created spiral through {count} points"

variable [Scalar α]

/-- Raising a curve to an order, if that is a change. -/
def ofRaise (c : Curve α) (order : Nat) : List (Event α) :=
  if order = c.order then [] else [.raisedDegree (order - 1)]

/-- The insertions that split a curve into Bézier spans. -/
def ofSplit (c : Curve α) : List (Event α) :=
  match c.clampEnds with
  | .ok clamped => clamped.missingKnots.map fun m => .insertedKnot m.knot m.multiplicity
  | .error _ => []

/-- What a successful edit of a curve reports. -/
def ofEdit (c : Curve α) : Edit α → List (Event α)
  | .insertKnot value multiplicity => [.insertedKnot value multiplicity]
  | .removeKnots index0 index1 => [.removedKnots index0 index1]
  | .raiseOrder order => ofRaise c order
  | .append tail =>
      let order := max c.order tail.order
      ofRaise c order ++ ofRaise tail order
  | .splitBezier _ => ofSplit c
  | _ => []

/-- What a control point curve of a polyline reports. -/
def ofPolyline [Analytic α] (points : List (Point α)) (degree : Nat) : Event α :=
  .fittedPolyline (Curve.polylineDegree points.length degree) (Curve.isClosed points)
    points.length

end Event

end RationalSpline
