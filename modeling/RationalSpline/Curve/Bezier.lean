/-
  RationalSpline.Curve.Bezier
  ───────────────────────────
  BÉZIER SPANS.

  A single span in Bézier form is evaluated by de Casteljau's algorithm on
  `[0, 1]`.  `bezierSpan` extracts one span, `splitBezier` raises every interior
  knot to full multiplicity, so that all spans become visible at once.
-/
import RationalSpline.Curve.KnotEditing
import RationalSpline.Curve.Outcome

namespace RationalSpline

variable {α : Type} [Scalar α]

/-! ## §1. Bézier curves. -/

/-- A polynomial or rational span in Bézier form, on `[0, 1]`. -/
structure BezierCurve (α : Type) where
  /-- The number of coordinates of a location. -/
  dimension : Nat
  /-- The control points, one more than the degree. -/
  points : ControlPoints α
  deriving Repr, DecidableEq

/-- One round of de Casteljau's algorithm. -/
def casteljauRound (t : α) : List (Point α) → List (Point α)
  | p :: q :: rest => Point.blend t p q :: casteljauRound t (q :: rest)
  | _ => []

@[simp] theorem length_casteljauRound (t : α) (points : List (Point α)) :
    (casteljauRound t points).length = points.length - 1 := by
  induction points with
  | nil => rfl
  | cons p rest ih =>
      cases rest with
      | nil => rfl
      | cons q rest => simp [casteljauRound, ih]

/-- The point that remains after so many rounds. -/
def casteljau (t : α) : Nat → List (Point α) → Point α
  | 0, points => points.headD []
  | rounds + 1, points => casteljau t rounds (casteljauRound t points)

namespace BezierCurve

/-- The number of control points. -/
def order (b : BezierCurve α) : Nat := b.points.length

/-- The polynomial degree. -/
def degree (b : BezierCurve α) : Nat := b.order - 1

/-- The value of the stored vectors at `t`. -/
def vectorAt (b : BezierCurve α) (t : α) : Point α := casteljau t b.degree b.points.vectors

/-- The location at `t`. -/
def pointAt (b : BezierCurve α) (t : α) : Point α :=
  if b.points.isRational then Point.dehomogenize (b.vectorAt t) else b.vectorAt t

/-- The same span as a clamped curve on `[0, 1]`. -/
def toCurve (b : BezierCurve α) : Curve α :=
  { dimension := b.dimension
    order := b.order
    points := b.points
    knots := KnotVector.clampedUniform b.order b.order 1 }

end BezierCurve

namespace Curve

/-! ## §2. One span. -/

/-- The control points and knots that act on the span which starts at the compact
knot `order - 2 + index`. -/
def spanCurve (c : Curve α) (index : Nat) : Curve α :=
  { c with
    points := c.points.withVectors ((c.points.vectors.drop index).take c.order)
    knots := ⟨(c.knots.values.drop index).take (2 * (c.order - 1))⟩ }

/-- The span which starts at the compact knot `order - 2 + index`, in Bézier form. -/
def bezierSpan (c : Curve α) (index : Nat) : Except (Failure α) (BezierCurve α) := do
  if !c.hasSpan then .error .undefined
  else
    checkIndex index (c.pointCount - c.order + 1)
    let a := c.knots.knot (c.order - 2 + index)
    let b := c.knots.knot (c.order - 1 + index)
    if b ≤ a then .error (.outOfDomain (.emptySpan index a))
    else
      -- the span is the whole domain of its part of the curve
      let clamped ← (c.spanCurve index).clampEnds
      .ok ⟨c.dimension, clamped.points⟩

/-! ## §3. All spans. -/

/-- The interior knots below full multiplicity, each with what it lacks. -/
def missingKnots (c : Curve α) : List (KnotMultiplicity α) :=
  let (t0, t1) := c.domain
  let interior := c.knots.values.filter fun k => decide (t0 < k ∧ k < t1)
  ((KnotVector.runs interior).filter fun m => decide (m.multiplicity < c.degree)).map
    fun m => ⟨m.knot, c.degree - m.multiplicity⟩

/-- Insert several knots, one after the other, up to the first that is refused. -/
def insertEach (c : Curve α) : List (KnotMultiplicity α) → Outcome α
  | [] => ⟨c, none⟩
  | m :: rest =>
      (Outcome.ofResult c (c.insertKnot m.knot m.multiplicity)).andThen fun c => insertEach c rest

/-- Scale the points of a segment by falling powers of `ratio`, from `factor` on. -/
def scaleSegment (ratio factor : α) : List (Point α) → List (Point α)
  | [] => []
  | p :: rest =>
      let factor := factor / ratio
      Point.scale p factor :: scaleSegment ratio factor rest

/-- Scale the vectors after index `i`, in segments of `degree` from corner to
corner, so that each corner gets weight 1.  A corner belongs to the segment on its
left; `weights` are those before any scaling. -/
def unitCorners [Analytic α] (degree : Nat) (weights : List α) :
    Nat → Nat → List (Point α) → List (Point α)
  | 0, _, _ => []
  | segments + 1, i, points =>
      let w0 := weights.getD i 0
      -- `degree` steps from corner to corner use the ratio up
      let ratio := Analytic.pow (weights.getD (i + degree) 0 / w0) (1 / (degree : α))
      scaleSegment ratio (1 / w0) (points.take degree)
        ++ unitCorners degree weights segments (i + degree) (points.drop degree)

/-- A curve of Bézier spans whose corners have weight 1. -/
def unitEnds [Analytic α] (c : Curve α) : Curve α :=
  match c.points with
  | .cartesian _ => c
  | .homogeneous [] => c
  | .homogeneous (p :: rest) =>
      let weights := c.points.weights
      let segments := rest.length / c.degree
      { c with
        points := .homogeneous
          (Point.divide p p.weight :: unitCorners c.degree weights segments 0 rest) }

/-- Clamp the curve and give every interior knot full multiplicity. -/
def splitSpans [Precision α] (c : Curve α) : Outcome α :=
  match c.validate with
  | .error e => ⟨c, some e⟩
  | .ok () =>
      (Outcome.ofResult c c.clampEnds).andThen fun clamped =>
        clamped.insertEach clamped.missingKnots

/-- Split the curve into Bézier spans, with weight 1 at their ends on demand. -/
def splitBezier [Precision α] [Analytic α] (c : Curve α) (unit : Bool) : Outcome α :=
  c.splitSpans.andThen fun c => ⟨if unit then c.unitEnds else c, none⟩

end Curve

end RationalSpline
