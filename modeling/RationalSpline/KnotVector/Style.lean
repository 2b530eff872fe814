/-
  RationalSpline.KnotVector.Style
  ───────────────────────────────
  CLASSES OF KNOT VECTORS.

  The class is the first that fits of: no valid domain, not clamped (evenly
  spaced or not), only Bézier spans, evenly spaced interior, anything clamped.
-/
import RationalSpline.KnotVector.Multiplicity
import RationalSpline.Failure

namespace RationalSpline

/-- The class of a knot vector. -/
inductive KnotStyle where
  /-- Not clamped, all knots equally spaced. -/
  | uniform
  /-- Clamped at both ends, interior knots equally spaced. -/
  | quasiUniform
  /-- Clamped at both ends, every interior knot of full multiplicity. -/
  | piecewiseBezier
  /-- Clamped at both ends, any interior. -/
  | clampedEnd
  /-- Not clamped, unevenly spaced. -/
  | nonUniform
  /-- No valid domain. -/
  | unknown
  deriving Repr, DecidableEq

/-- The name of a class. -/
def KnotStyle.name : KnotStyle → String
  | .uniform => "Uniform"
  | .quasiUniform => "QuasiUniform"
  | .piecewiseBezier => "PiecewiseBezier"
  | .clampedEnd => "ClampedEnd"
  | .nonUniform => "NonUniform"
  | .unknown => "Unknown"

namespace KnotVector

variable {α : Type} [Scalar α]

/-- The average length of the first and the last span. -/
def endSpacing (U : KnotVector α) (order : Nat) : α :=
  let count := U.size + 2 - order
  (U.knot (order - 1) - U.knot (order - 2) + U.knot (count - 1) - U.knot (count - 2))
    * Scalar.half

/-- Neighbouring values differ by `delta`, up to a millionth of it. -/
def isSpacedBy (delta : α) (values : List α) : Bool :=
  let tolerance := delta * (1 / ((1000000 : Nat) : α))
  (Sequence.neighbours values).all fun (a, b) => decide (Scalar.abs (b - a - delta) ≤ tolerance)

/-- The class of the knots of a curve of the given order. -/
def style (U : KnotVector α) (order : Nat) : KnotStyle :=
  let count := U.size + 2 - order
  let delta := U.endSpacing order
  if order < 2 ∨ U.size < 2 * (order - 1) ∨ U.isNonDecreasing = false then .unknown
  -- from here on there are knots enough, and none decreases
  else if (U.domain order).2 ≤ (U.domain order).1 then .unknown
  else if !(U.isClamped order .start && U.isClamped order .finish) then
    if isSpacedBy delta U.values then .uniform else .nonUniform
  -- one span only, or spans that are straight lines
  else if count = order ∨ order = 2 then .piecewiseBezier
  else if isSpacedBy delta ((U.values.drop (order - 2)).take (count - (order - 2))) then
    .quasiUniform
  else if (runs ((U.values.drop (order - 1)).take (count - order))).all
      fun m => m.multiplicity == order - 1 then
    .piecewiseBezier
  else .clampedEnd

/-- The class, for an order whose double is still a count. -/
def style? (U : KnotVector α) (order : Nat) : Option KnotStyle :=
  if 2 * (order - 1) < countLimit then some (U.style order) else none

end KnotVector

end RationalSpline
