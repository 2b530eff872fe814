/-
  RationalSpline.Spline.Derivatives
  ─────────────────────────────────
  DERIVATIVES OF SPLINES.

  The `k`-th derivative of a spline combines the control points of a span by the
  `k`-th derivatives of its basis functions.  Above the degree it vanishes.
-/
import RationalSpline.Spline.Basic
import RationalSpline.KnotVector.BasisDerivatives

namespace RationalSpline.Spline

variable {α : Type} [Scalar α]

/-- The `k`-th derivative at `t`, on the span `i`. -/
def derivative (dimension : Nat) (S : Spline α) (i : Nat) (t : α) (k : Nat) : Point α :=
  if k ≤ S.degree then
    Point.combine dimension (S.knots.derivativeRow i t S.degree k) (S.window i)
  else Point.zero dimension

/-- The derivatives of orders `0, …, count` at `t`. -/
def derivatives [Precision α] (dimension : Nat) (S : Spline α) (t : α) (count : Nat) :
    List (Point α) :=
  (List.range (count + 1)).map (S.derivative dimension (S.spanAt t) t)

@[simp] theorem length_derivatives [Precision α] (dimension : Nat) (S : Spline α) (t : α)
    (count : Nat) : (S.derivatives dimension t count).length = count + 1 := by
  simp [derivatives]

end RationalSpline.Spline
