/-
  RationalSpline.Curve.Edit
  ─────────────────────────
  EDITS.

  Everything that changes a curve, as data.  `Edit.apply` gives the curve
  afterwards, failed edits included, so that a run of edits has a state after each
  step whether the step succeeded or not.
-/
import RationalSpline.Curve.Append
import RationalSpline.Curve.Bezier

namespace RationalSpline

/-- A change of a curve. -/
inductive Edit (α : Type) where
  /-- Set one knot. -/
  | setKnot (index : Nat) (value : α)
  /-- Replace the knots by uniform ones. -/
  | makeUniform (delta : α) (clamped : Bool)
  /-- Insert a knot several times. -/
  | insertKnot (value : α) (multiplicity : Nat)
  /-- Remove the knots between two indices. -/
  | removeKnots (index0 index1 : Nat)
  /-- Give an end knot full multiplicity. -/
  | clampEnd (curveEnd : CurveEnd)
  /-- Move and scale the domain. -/
  | setDomain (t0 t1 : α)
  /-- Move a control point. -/
  | setLocation (index : Nat) (point : Point α)
  /-- Set a control point and its weight. -/
  | setHomogeneous (index : Nat) (point : Point α)
  /-- Set a weight. -/
  | setWeight (index : Nat) (weight : α)
  /-- Store weights. -/
  | makeRational
  /-- Drop the weights. -/
  | makeNonRational
  /-- Move all control points to the origin. -/
  | zeroPoints
  /-- Change the parameter by a linear fractional map. -/
  | reparameterize (factor : α)
  /-- Set the weights of the end points. -/
  | changeEndWeights (w0 w1 : α)
  /-- Raise the order. -/
  | raiseOrder (order : Nat)
  /-- Join another curve to the end. -/
  | append (tail : Curve α)
  /-- Split into Bézier spans, with unit weights at their ends on demand. -/
  | splitBezier (unit : Bool)
  /-- Reverse the direction. -/
  | invert
  deriving Repr

namespace Edit

variable {α : Type} [Scalar α] [Precision α] [Analytic α]

/-- The curve after an edit, and why the edit failed if it did. -/
def apply (c : Curve α) : Edit α → Curve.Outcome α
  | .setKnot index value => .ofResult c (c.setKnot index value)
  | .makeUniform delta clamped => .ofResult c (c.makeUniform delta clamped)
  | .insertKnot value multiplicity => .ofResult c (c.insertKnot value multiplicity)
  | .removeKnots index0 index1 => .ofResult c (c.removeKnots index0 index1)
  | .clampEnd curveEnd => .ofResult c (c.clampEnd curveEnd)
  | .setDomain t0 t1 => .ofResult c (c.setDomain t0 t1)
  | .setLocation index point => .ofResult c (c.setLocation index point)
  | .setHomogeneous index point => .ofResult c (c.setHomogeneous index point)
  | .setWeight index weight => .ofResult c (c.setWeight index weight)
  | .makeRational => ⟨c.makeRational, none⟩
  | .makeNonRational => .ofResult c c.makeNonRational
  | .zeroPoints => ⟨c.zeroPoints, none⟩
  | .reparameterize factor => .ofResult c (c.reparameterize factor)
  | .changeEndWeights w0 w1 => c.changeEndWeights w0 w1
  | .raiseOrder order => .ofResult c (c.raiseOrder order)
  | .append tail => .ofResult c (c.append tail)
  | .splitBezier unit => c.splitBezier unit
  | .invert => ⟨c.invert, none⟩

/-- The curve after a run of edits, each applied to what the one before left. -/
def run (c : Curve α) (edits : List (Edit α)) : Curve α :=
  edits.foldl (fun c e => (e.apply c).curve) c

end Edit

end RationalSpline
