/-
  RationalSpline.Interpolation.Curve
  ──────────────────────────────────
  CURVES THROUGH GIVEN POINTS.

  The points get parameters, the interior knots are averages of `degree` parameters
  in a row, and the control points solve the equations "the curve passes through
  each point at its parameter".
-/
import RationalSpline.Curve.Construction
import RationalSpline.Interpolation.Parameterization
import RationalSpline.Interpolation.LinearSystem

namespace RationalSpline.Curve

/-- The highest degree of a fitted curve. -/
def maxDegree : Nat := 11

variable {α : Type} [Scalar α]

/-- Padded clamped knots on `[0, 1]` whose interior ones are averages of `degree`
parameters in a row. -/
def averagedKnots (degree : Nat) (parameters : List α) : KnotVector α :=
  let inverse : α := 1 / (degree : α)
  let interior := (List.range (parameters.length - degree - 1)).map fun i =>
    ((parameters.drop (i + 1)).take degree).foldl (· + ·) 0 * inverse
  ⟨List.replicate (degree + 1) 0 ++ interior ++ List.replicate (degree + 1) 1⟩

variable [Precision α]

/-- The equation "the curve passes through `p` at `u`" for `count` control points. -/
def collocation (U : KnotVector α) (degree count : Nat) (u : α) (p : Point α) : Equation α :=
  let i := U.span (count - 1) degree u
  { coefficients :=
      -- only the control points of the span have a share
      List.replicate (i - degree) 0 ++ U.basisRow i u degree
        ++ List.replicate (count - i - 1) 0
    value := p }

/-- The equations of all points, each at its parameter. -/
def collocations (U : KnotVector α) (degree : Nat) (parameters : List α)
    (points : List (Point α)) : List (Equation α) :=
  (parameters.zip points).map fun (u, p) => collocation U degree points.length u p

/-- A clamped curve on `[0, 1]` through every point; `solve` solves linear systems. -/
def interpolateBy [Analytic α] (solve : List (Equation α) → Option (List (Point α)))
    (points : List (Point α)) (degree : Nat) (style : Parameterization) :
    Except (Failure α) (Curve α) := do
  if degree < 1 ∨ maxDegree < degree then
    .error (.invalidShape (.interpolationDegree degree))
  else if points.length < degree + 1 then
    .error (.invalidShape (.interpolationPointsTooFew points.length degree))
  else
    let dimension := (points.headD []).length
    checkPoints dimension points
    match style.parameters? points with
    | none => .error (.invalidShape .coincidentPoints)
    | some parameters =>
        let U := averagedKnots degree parameters
        match solve (collocations U degree parameters points) with
        | none => .error (.invalidShape .singularSystem)
        | some solution =>
            ofParts dimension (degree + 1) (.cartesian solution) U.unpadded.values

/-- A clamped curve on `[0, 1]` through every point. -/
def interpolate [Analytic α] (points : List (Point α)) (degree : Nat)
    (style : Parameterization) : Except (Failure α) (Curve α) :=
  interpolateBy Equation.solve? points degree style

end RationalSpline.Curve
