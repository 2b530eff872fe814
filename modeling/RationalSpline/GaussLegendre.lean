/-
  RationalSpline.GaussLegendre
  ────────────────────────────
  GAUSS-LEGENDRE QUADRATURE.

  The rule of size `m` has the roots of the Legendre polynomial of degree `m` as
  nodes.  A node is the cosine of an angle: angles and weights are computed in fixed
  point and rounded once to double precision, so that a constant is integrated as
  exactly as the weights allow.  Sums run in double precision for either kind of
  scalar.
-/
import RationalSpline.Scalar.FixedPoint

namespace RationalSpline

/-! ## §1. Legendre polynomials. -/

/-- The Legendre polynomials of degrees `m` and `m - 1` at `x`. -/
def legendre (x : FixedPoint) : Nat → FixedPoint × FixedPoint
  | 0 => (.ofInt 1, .ofInt 0)
  | m + 1 =>
      let (p, q) := legendre x m
      ((((x.mul p).times (2 * m + 1)).sub (q.times m)).divideBy (m + 1), p)

/-- The derivative of the polynomial of degree `m` at `x`, given its two values. -/
def legendreSlope (m : Nat) (x : FixedPoint) (values : FixedPoint × FixedPoint) : FixedPoint :=
  (((x.mul values.1).sub values.2).times m).div ((x.mul x).sub (.ofInt 1))

/-- Newton steps towards a root of the polynomial of degree `m`. -/
def legendreRoot (m : Nat) : Nat → FixedPoint → FixedPoint
  | 0, x => x
  | steps + 1, x =>
      let values := legendre x m
      legendreRoot m steps (x.sub (values.1.div (legendreSlope m x values)))

/-! ## §2. The rule. -/

/-- Half a turn. -/
def halfTurn : Float := Float.acos (-1.0)

/-- The angle in double precision of a cosine: the angle of the rounded cosine, put right
by what its own cosine misses. -/
def angleOf (x : FixedPoint) : Float :=
  let angle := Float.acos x.toFloat
  angle + ((FixedPoint.ofFloat angle).cos.sub x).toFloat / Float.sin angle

/-- The `i`-th smallest angle of the rule of size `m`, below a quarter turn, with its
weight. -/
def anglePair (m i : Nat) : Float × Float :=
  -- seven steps from this estimate settle every place
  let estimate := Float.cos (halfTurn * (Float.ofNat i + 0.75) / (Float.ofNat m + 0.5))
  let x := legendreRoot m 7 (.ofFloat estimate)
  let slope := legendreSlope m x (legendre x m)
  let weight := (FixedPoint.ofInt 2).div
    (((FixedPoint.ofInt 1).sub (x.mul x)).mul (slope.mul slope))
  (angleOf x, weight.toFloat)

/-- The angle in the middle of a rule of odd size, a quarter turn, with its weight. -/
def middlePair (m : Nat) : Float × Float :=
  let slope := (legendreSlope m (.ofInt 0) (legendre (.ofInt 0) m)).toFloat
  (Analytic.halfPi, 2.0 / (slope * slope))

/-- The nodes of the rule of size `m` in decreasing order, each with its weight. -/
def gaussLegendre (m : Nat) : List (Float × Float) :=
  let below := (List.range (m / 2)).map (anglePair m)
  let middle := if m % 2 = 1 then [middlePair m] else []
  let above := below.reverse.map fun (angle, weight) => (halfTurn - angle, weight)
  (below ++ middle ++ above).map fun (angle, weight) => (Float.cos angle, weight)

@[simp] theorem length_gaussLegendre (m : Nat) : (gaussLegendre m).length = m := by
  by_cases odd : m % 2 = 1 <;> simp [gaussLegendre, odd] <;> omega

instance : Quadrature Float Float where
  widen := id
  narrow := id
  rule := gaussLegendre

instance : Quadrature Float32 Float where
  widen := Float32.toFloat
  narrow := Float.toFloat32
  rule := gaussLegendre

end RationalSpline
