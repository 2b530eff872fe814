/-
  RationalSpline.Spline.Basic
  ───────────────────────────
  VECTOR-VALUED SPLINES.

  A spline has a degree `p`, padded knots `U` and control points `P`.  It does not
  know whether its vectors are locations or homogeneous points: insertion, removal
  and elevation treat both alike.

  One round of affine combinations of neighbouring control points, each at its own
  knots, is the step that inserts a knot.
-/
import RationalSpline.KnotVector.SpanSearch
import RationalSpline.KnotVector.Basis
import RationalSpline.Point

namespace RationalSpline

/-- A spline on padded knots. -/
structure Spline (α : Type) where
  /-- The polynomial degree. -/
  degree : Nat
  /-- The padded knots, `degree + 1` more than control points. -/
  knots : KnotVector α
  /-- The control vectors. -/
  points : List (Point α)
  deriving Repr, DecidableEq

namespace Spline

variable {α : Type} [Scalar α]

/-! ## §1. Rounds of affine combinations. -/

/-- Combine neighbouring points at the argument `v`: the `i`-th pair on the
interval from the knot `lo + i` to the knot `hi + i`. -/
def round (U : KnotVector α) (v : α) (lo hi : Nat) : List (Point α) → List (Point α)
  | p :: q :: rest =>
      Point.blend ((v - U.knot lo) / (U.knot hi - U.knot lo)) p q
        :: round U v (lo + 1) (hi + 1) (q :: rest)
  | _ => []

@[simp] theorem length_round (U : KnotVector α) (v : α) (lo hi : Nat)
    (points : List (Point α)) : (round U v lo hi points).length = points.length - 1 := by
  induction points generalizing lo hi with
  | nil => rfl
  | cons p rest ih =>
      cases rest with
      | nil => rfl
      | cons q rest => simp [round, ih]

/-- The control points that act on the span `i`. -/
def window (S : Spline α) (i : Nat) : List (Point α) :=
  (S.points.drop (i - S.degree)).take (S.degree + 1)

/-! ## §2. Values. -/

/-- The span of a parameter. -/
def spanAt [Precision α] (S : Spline α) (t : α) : Nat :=
  S.knots.span (S.points.length - 1) S.degree t

/-- The value at `t`: the control points of its span, combined by the basis. -/
def value [Precision α] (dimension : Nat) (S : Spline α) (t : α) : Point α :=
  let i := S.spanAt t
  Point.combine dimension (S.knots.basisRow i t S.degree) (S.window i)

end Spline

end RationalSpline
