/-
  RationalSpline.Curve.Polyline
  ─────────────────────────────
  CONTROL POINT CURVES OF POLYLINES.

  The vertices of a polyline become control points.  A polyline of four vertices or
  more whose ends coincide is closed and gives a periodic curve, turned so that the
  seam stays at the closing vertex.  The domain becomes `[0, length]`.
-/
import RationalSpline.Curve.KnotEditing
import RationalSpline.Curve.Length
import RationalSpline.Interpolation.Curve

namespace RationalSpline.Curve

variable {α ω : Type} [Scalar α] [Precision α] [Analytic α]

/-- The ends of a polyline of four vertices or more coincide. -/
def isClosed (points : List (Point α)) : Bool :=
  decide (4 ≤ points.length
    ∧ Point.norm (Point.sub (points.headD []) (points.getLastD [])) ≤ Scalar.zeroTolerance)

/-- The degree that a number of vertices allows. -/
def polylineDegree (count degree : Nat) : Nat :=
  min (min (max degree 1) maxDegree) (count - 1)

/-- The vertices one place later: the last one is dropped, and the one that is now the last
comes in front once more. -/
def turn (points : List (Point α)) : List (Point α) :=
  match points.dropLast.getLast? with
  | some last => last :: points.dropLast
  | none => points.dropLast

/-- The vertices of a closed polyline, turned `shift` times, without the closing one. -/
def turned (points : List (Point α)) (shift : Nat) : List (Point α) :=
  (Nat.repeat turn shift points).take (points.length - 1)

/-- The control point curve of a polyline on unit knots. -/
def polylineCurve (points : List (Point α)) (degree : Nat) : Except (Failure α) (Curve α) :=
  let dimension := (points.headD []).length
  let degree := polylineDegree points.length degree
  if isClosed points then
    periodicUniform dimension (degree + 1) (turned points ((degree - 1) / 2)) 1
  else clampedUniform dimension (degree + 1) points 1

/-- The control point curve of a polyline, on `[0, length]` if the length is known. -/
def throughPoints [Quadrature α ω] [Scalar ω] [Precision ω] (points : List (Point α))
    (degree : Nat) : Except (Failure α) (Curve α) := do
  if points.length < 2 then .error (.invalidShape .polylineTooShort)
  else
    checkPoints (points.headD []).length points
    let curve ← polylineCurve points degree
    -- a length that is not known leaves the unit knots
    match curve.length with
    | .ok l => if 0 < l then curve.setDomain 0 l else .ok curve
    | .error _ => .ok curve

end RationalSpline.Curve
