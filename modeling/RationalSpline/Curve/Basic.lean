/-
  RationalSpline.Curve.Basic
  ──────────────────────────
  CURVES.

  A curve of order `k = degree + 1` with `n` control points has `n + k - 2` knots
  in compact form.  Its dimension is a number, not a type: control points have
  `dimension` coordinates, and one more, the weight, when the curve is rational.
-/
import RationalSpline.ControlPoints
import RationalSpline.KnotVector.Style
import RationalSpline.Spline.Basic

namespace RationalSpline

/-- A rational or polynomial spline curve. -/
structure Curve (α : Type) where
  /-- The number of coordinates of a location. -/
  dimension : Nat
  /-- The degree plus one. -/
  order : Nat
  /-- The control points. -/
  points : ControlPoints α
  /-- The knots, in compact form. -/
  knots : KnotVector α
  deriving Repr, DecidableEq

namespace Curve

variable {α : Type}

/-! ## §1. Counts. -/

/-- The polynomial degree. -/
def degree (c : Curve α) : Nat := c.order - 1

/-- The number of control points. -/
def pointCount (c : Curve α) : Nat := c.points.length

/-- The number of knots in compact form. -/
def knotCount (c : Curve α) : Nat := c.knots.size

/-- Whether the control points carry weights. -/
def isRational (c : Curve α) : Bool := c.points.isRational

/-- The number of coordinates of a stored control vector. -/
def vectorSize (c : Curve α) : Nat := if c.isRational then c.dimension + 1 else c.dimension

/-- There are control points enough for one span. -/
def hasSpan (c : Curve α) : Bool := decide (c.order ≤ c.pointCount)

/-- The knot count fits the control points and the order. -/
def balanced (c : Curve α) : Bool :=
  decide (c.knotCount = c.pointCount + c.order - 2)

/-- The curve in other numbers. -/
def map {β : Type} (f : α → β) (c : Curve α) : Curve β :=
  { dimension := c.dimension
    order := c.order
    points := c.points.map f
    knots := c.knots.map f }

/-- The curve whose stored vectors are a given spline. -/
def withSpline (c : Curve α) (S : Spline α) : Curve α :=
  { c with
    order := S.degree + 1
    points := c.points.withVectors S.points
    knots := S.knots.unpadded }

@[simp] theorem isRational_withSpline (c : Curve α) (S : Spline α) :
    (c.withSpline S).isRational = c.isRational := by
  simp [withSpline, isRational]

@[simp] theorem vectors_withSpline (c : Curve α) (S : Spline α) :
    (c.withSpline S).points.vectors = S.points :=
  ControlPoints.vectors_withVectors c.points S.points

@[simp] theorem vectorSize_withSpline (c : Curve α) (S : Spline α) :
    (c.withSpline S).vectorSize = c.vectorSize := by
  rw [vectorSize, isRational_withSpline]
  rfl

@[simp] theorem pointCount_withSpline (c : Curve α) (S : Spline α) :
    (c.withSpline S).pointCount = S.points.length := by
  simp [withSpline, pointCount]

@[simp] theorem knotCount_withSpline (c : Curve α) (S : Spline α) :
    (c.withSpline S).knotCount = S.knots.size - 2 := by
  simp [withSpline, knotCount]

/-! ## §2. Knots. -/

variable [Scalar α]

/-- The parameter interval. -/
def domain (c : Curve α) : α × α := c.knots.domain c.order

/-- The boundaries of the non-empty spans. -/
def spanVector (c : Curve α) : List α := c.knots.spanVector c.order

/-- The boundaries, for control points that are not too few to reach over a span by
more than one. -/
def spanVector? (c : Curve α) : Option (List α) := c.knots.spanVector? c.order

/-- The number of non-empty spans. -/
def spanCount (c : Curve α) : Nat := c.spanVector.length - 1

/-- Whether an end knot has full multiplicity. -/
def isClamped (c : Curve α) (e : CurveEnd) : Bool := c.knots.isClamped c.order e

/-- The class of the knots. -/
def knotStyle (c : Curve α) : KnotStyle := c.knots.style c.order

/-- Whether every span is a Bézier span. -/
def hasBezierSpans (c : Curve α) : Bool := c.knotStyle == .piecewiseBezier

/-- The parameters of the control points of a straight line. -/
def grevilleAbscissae (c : Curve α) : List α :=
  (List.range c.pointCount).map (c.knots.greville c.order)

/-! ## §3. The spline of the stored vectors. -/

/-- The stored vectors as a spline on padded knots. -/
def spline (c : Curve α) : Spline α :=
  ⟨c.degree, c.knots.padded c.order, c.points.vectors⟩

@[simp] theorem size_knots_spline (c : Curve α) :
    c.spline.knots.size = c.knotCount + 2 := by
  simp [spline, knotCount]

/-- The spline of a curve loses nothing but the meaning of its vectors. -/
theorem withSpline_spline {c : Curve α} (h : 1 ≤ c.order) : c.withSpline c.spline = c := by
  obtain ⟨dimension, order, points, knots⟩ := c
  cases points <;>
    simp_all [withSpline, spline, degree, ControlPoints.withVectors, ControlPoints.vectors]

/-- The curve in the opposite direction. -/
def invert (c : Curve α) : Curve α :=
  { c with points := c.points.reverse, knots := c.knots.invert }

@[simp] theorem isRational_invert (c : Curve α) : c.invert.isRational = c.isRational := by
  simp [invert, isRational]

@[simp] theorem pointCount_invert (c : Curve α) : c.invert.pointCount = c.pointCount := by
  simp [invert, pointCount]

@[simp] theorem balanced_invert (c : Curve α) : c.invert.balanced = c.balanced :=
  decide_eq_decide.2 (by simp [knotCount, pointCount, invert])

/-- The curve with weights, all of them 1 where there were none. -/
def makeRational (c : Curve α) : Curve α := { c with points := c.points.toRational }

@[simp] theorem isRational_makeRational (c : Curve α) : c.makeRational.isRational = true := by
  simp [makeRational, isRational]

@[simp] theorem pointCount_makeRational (c : Curve α) :
    c.makeRational.pointCount = c.pointCount := by
  simp [makeRational, pointCount]

@[simp] theorem balanced_makeRational (c : Curve α) :
    c.makeRational.balanced = c.balanced :=
  decide_eq_decide.2 (by simp [knotCount, pointCount, makeRational])

end Curve

end RationalSpline
