/-
  RationalSpline.Curve.Comparison
  ───────────────────────────────
  DUPLICATES.

  Two curves are duplicates when their shapes agree, their control points and
  weights agree within a tolerance, and their knots agree within the zero
  tolerance: as they are, or after both domains are mapped to `[0, 1]`.
-/
import RationalSpline.Curve.Basic

namespace RationalSpline.Curve

variable {α : Type} [Scalar α]

/-- The knots as they are compared. -/
def comparedKnots (c : Curve α) (ignoreParameterization : Bool) : List α :=
  if ignoreParameterization then (c.knots.remap c.domain (0, 1)).values
  else c.knots.values

/-- How far knots of duplicates may differ. -/
def knotTolerance (c : Curve α) (ignoreParameterization : Bool) : α :=
  Scalar.zeroTolerance
    * (if ignoreParameterization then 1
       else Scalar.maxNum (Scalar.maxNum 1 (Scalar.abs c.domain.2)) (Scalar.abs c.domain.1))

/-- All locations and weights agree within the tolerance. -/
def samePoints [Analytic α] (a b : Curve α) (tolerance : α) : Bool :=
  (List.range a.pointCount).all fun i =>
    decide (Point.norm (Point.sub (a.points.location i) (b.points.location i)) ≤ tolerance
      ∧ Scalar.abs (a.points.weight i - b.points.weight i) ≤ tolerance)

/-- Whether two curves are duplicates. -/
def isDuplicate [Analytic α] (a b : Curve α) (ignoreParameterization : Bool)
    (tolerance : α) : Bool :=
  -- the shapes first: only then do the entries correspond
  a.dimension == b.dimension && a.isRational == b.isRational && a.order == b.order
    && a.pointCount == b.pointCount
    && samePoints a b (Scalar.maxNum tolerance Scalar.zeroTolerance)
    && ((a.comparedKnots ignoreParameterization).zip
          (b.comparedKnots ignoreParameterization)).all
        fun (x, y) => decide (Scalar.abs (x - y) ≤ a.knotTolerance ignoreParameterization)

end RationalSpline.Curve
