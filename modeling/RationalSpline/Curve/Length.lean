/-
  RationalSpline.Curve.Length
  ───────────────────────────
  ARC LENGTH.

  The length is the integral of the speed, span by span, by a quadrature rule
  with 16 nodes more than the degree.  Sums run in the wide scalars `ω`.
-/
import RationalSpline.Curve.Evaluation
import RationalSpline.Failure

namespace RationalSpline

variable {α ω : Type} [Scalar α] [Precision α] [Analytic α]

/-! ## §1. Integration. -/

/-- A rule on the interval from `a` to `b`, for `f`. -/
def integrate [Quadrature α ω] [Scalar ω] (rule : List (ω × ω)) (a b : ω) (f : α → α) : ω :=
  let sum := rule.foldl
    (fun sum ((x, w) : ω × ω) =>
      sum + Quadrature.widen (f (Quadrature.narrow (Scalar.half * ((b - a) * x + (b + a))))) * w) 0
  Scalar.half * (b - a) * sum

namespace Curve

/-- The speed at `t`. -/
def speedAt (c : Curve α) (t : α) : α := Point.norm (c.tangentAt t)

/-- The integral of the speed over the part of a span from `a` to `b` that lies
between `t0` and `t1`. -/
def spanLength [Quadrature α ω] [Scalar ω] (c : Curve α) (rule : List (ω × ω))
    (t0 t1 : α) (a b : α) : ω :=
  let lower := Scalar.maxNum a t0
  let upper := Scalar.minNum b t1
  if upper ≤ lower then 0
  else integrate rule (Quadrature.widen lower : ω) (Quadrature.widen upper) c.speedAt

/-! ## §2. Lengths of curves. -/

/-- The length of the part between two parameters. -/
def lengthBetween [Quadrature α ω] [Scalar ω] [Precision ω] (c : Curve α) (t0 t1 : α) :
    Except (Failure α) α :=
  match c.spanVector? with
  | none => .error .undefined
  | some boundaries =>
      let rule := Quadrature.rule α (16 + c.degree)
      let total : ω := (Sequence.neighbours boundaries).foldl
        (fun total (a, b) => total + c.spanLength rule t0 t1 a b) 0
      if Precision.isFinite total then .ok (Quadrature.narrow total)
      else .error (.outOfDomain .divergentLength)

/-- The length of the curve. -/
def length [Quadrature α ω] [Scalar ω] [Precision ω] (c : Curve α) : Except (Failure α) α :=
  c.lengthBetween c.domain.1 c.domain.2

/-- The sum of the distances between consecutive control points. -/
def polygonLength (c : Curve α) : α :=
  (Sequence.neighbours c.points.locations).foldl
    (fun total (p, q) => total + Point.distance p q) 0

end Curve

end RationalSpline
