/-
  RationalSpline.Proofs.BezierForm
  ────────────────────────────────
  TWO EVALUATORS OF ONE SPAN.

  De Casteljau's algorithm blends control points, the triangular scheme of a curve blends
  basis functions.  Both compute the value of one form at equal arguments: the form whose
  values at copies of 0 and 1 are the control points.  On the knots of a Bézier curve the span
  search has no choice, so they agree at every parameter, inside `[0, 1]` or not.
-/
import RationalSpline.Proofs.Evaluation
import RationalSpline.Proofs.SpanExtraction

namespace RationalSpline

variable {K : Type} [Field K] [LinearOrder K]

/-! ## §1. Knots without an interior. -/

/-- So many copies of 0, then as many of 1. -/
theorem values_clampedUniform_self {p : Nat} (pos : 0 < p) :
    (KnotVector.clampedUniform (p + 1) (p + 1) (1 : K)).values
      = [0, 1].flatMap (List.replicate p) := by
  have whole : ([0, 1] : List K).flatMap (List.replicate p)
      = List.replicate p 0 ++ List.replicate p 1 := by simp
  rw [whole]
  refine List.ext_getElem (by simp [KnotVector.clampedUniform]; omega) fun i h₁ h₂ => ?_
  simp only [KnotVector.clampedUniform, List.getElem_map, List.getElem_range, one_mul]
  simp only [List.length_append, List.length_replicate] at h₂
  by_cases first : i < p
  · rw [List.getElem_append_left (by simpa using first), List.getElem_replicate,
        show min (i - (p + 1 - 2)) (p + 1 - (p + 1) + 1) = 0 by omega, Nat.cast_zero]
  · rw [List.getElem_append_right (by simpa using first), List.getElem_replicate,
        show min (i - (p + 1 - 2)) (p + 1 - (p + 1) + 1) = 1 by omega, Nat.cast_one]

namespace BezierCurve

variable {s : BezierCurve K}

/-- A Bézier curve with a degree is one segment on `[0, 1]`. -/
theorem segmented_toCurve [IsStrictOrderedRing K] (two : 2 ≤ s.order) :
    Curve.Segmented s.toCurve [0, 1] 1 where
  increasing := by simp
  length := rfl
  values := by
    have degree : s.toCurve.degree = s.order - 1 := rfl
    have values := values_clampedUniform_self (K := K) (p := s.order - 1) (by omega)
    rwa [Nat.sub_add_cancel (by omega : 1 ≤ s.order), ← degree] at values
  count := by
    show s.order = (s.order - 1) * 1 + 1
    omega

/-! ## §2. The two evaluators. -/

/-- **Both evaluators compute the value of the form whose values are the control points.** -/
theorem vectorAt_toCurve [IsStrictOrderedRing K] [Precision K] [Precision.Exact K]
    (regular : s.toCurve.Regular) (t : K) : s.toCurve.vectorAt t = s.vectorAt t := by
  have two : 2 ≤ s.order := regular.two_le_order
  have degree : s.toCurve.degree = s.degree := rfl
  have segmented := segmented_toCurve two
  obtain ⟨F, follows⟩ := regular.toSound.exists_follows rfl degree
  -- there is one span, and the search finds it
  obtain ⟨-, -, start, finish, -⟩ := segmented.span regular.toSound Nat.zero_lt_one
  have span : s.toCurve.spline.spanAt t = s.toCurve.degree * (0 + 1) := by
    obtain ⟨reach, inside, -⟩ := regular.spanAt_spec t
    have count := segmented.count
    omega
  obtain ⟨t', low, high⟩ := exists_between (zero_lt_one (α := K))
  have values : ∀ r ≤ s.degree, s.points.vectors.getD r []
      = Point.ofVec (F t' (Multiset.replicate (s.degree - r) 0 + Multiset.replicate r 1 + 0)) := by
    intro r hr
    have value := segmented.getD_vectors regular.toSound degree follows Nat.zero_lt_one low high hr
    rwa [Nat.mul_zero, Nat.zero_add, ← add_zero (_ + Multiset.replicate r _)] at value
  have length : s.points.vectors.length = s.degree + 1 := by
    show s.order = s.order - 1 + 1
    omega
  have position : mix t (0 : K) 1 = t := by simp [mix]
  have below : s.toCurve.spline.knots.knot (s.toCurve.spline.spanAt t) < t' := by
    rw [span, start]
    exact low
  have above : t' < s.toCurve.spline.knots.knot (s.toCurve.spline.spanAt t + 1) := by
    rw [span, finish]
    exact high
  rw [regular.vectorAt_eq rfl degree follows below above, vectorAt,
      casteljau_eq (F t') (by simp) length values, add_zero, position]

end BezierCurve

/-! ## §3. Spans of a curve. -/

namespace Curve

variable {c : Curve K} {index : Nat} {s : BezierCurve K}

/-- **De Casteljau's algorithm on the points of a segment gives the curve on its span.** -/
theorem Segmented.definedVector_eq [IsStrictOrderedRing K] {boundaries : List K} {segments : Nat}
    (h : Segmented c boundaries segments) (regular : c.Regular) {k : Nat} (hk : k < segments)
    {points : List (Point K)} (length : points.length = c.degree + 1)
    (same : ∀ r ≤ c.degree, points.getD r [] = c.points.vectors.getD (c.degree * k + r) [])
    {u : K} (h₀ : 0 ≤ u) (h₁ : u ≤ 1) :
    c.definedVector (mix u (boundaries.getD k 0) (boundaries.getD (k + 1) 0))
      = casteljau u c.degree points := by
  obtain ⟨F, follows⟩ := regular.toSound.exists_follows rfl rfl
  obtain ⟨reach, inside, start, finish, lt⟩ := h.span regular.toSound hk
  obtain ⟨t, low, high⟩ := exists_between lt
  obtain ⟨above, below⟩ := mix_mem lt.le h₀ h₁
  have values : ∀ r ≤ c.degree, points.getD r []
      = Point.ofVec (F t (Multiset.replicate (c.degree - r) (boundaries.getD k 0)
        + Multiset.replicate r (boundaries.getD (k + 1) 0) + 0)) := by
    intro r hr
    rw [same r hr, h.getD_vectors regular.toSound rfl follows hk low high hr, add_zero]
  rw [casteljau_eq (F t) (by simp) length values, add_zero,
      regular.definedVector_on rfl rfl follows reach inside (by rwa [start]) (by rwa [finish])
        (by rwa [start]) (by rwa [finish])]

/-- The curve of an extracted span is the clamped part of the curve on other knots. -/
theorem Regular.regular_toCurve [IsStrictOrderedRing K] (h : c.Regular)
    (ok : c.bezierSpan index = .ok s) : s.toCurve.Regular := by
  have two := h.two_le_order
  rw [h.toSound.bezierSpan_eq] at ok
  split_ifs at ok with beyond empty
  have inside : index + c.order ≤ c.pointCount := by
    have := h.order_le
    omega
  have span := h.spanCurve inside (not_le.1 empty)
  obtain ⟨e, clamped, sound, keeps, -, -, count, -⟩ := span.clampEnds
  rw [clamped] at ok
  obtain rfl : ⟨c.dimension, e.points⟩ = s := Except.ok.inj ok
  have regular := span.regular_clampEnds clamped
  have points : e.pointCount = e.order :=
    (count.trans (pointCount_spanCurve inside)).trans keeps.order.symm
  have uniform := sound.regular_clampedUniform regular.dimension_pos
    (ControlPoints.forall_weights_pos_iff.1 regular.weight_pos) (zero_lt_one (α := K))
  have dimension : e.dimension = c.dimension := keeps.dimension
  have same : BezierCurve.toCurve ⟨c.dimension, e.points⟩
      = { e with knots := KnotVector.clampedUniform e.order e.pointCount 1 } := by
    show Curve.mk c.dimension e.pointCount e.points
        (KnotVector.clampedUniform e.pointCount e.pointCount 1) = _
    rw [points, ← dimension]
  rw [same]
  exact uniform

/-- **The two evaluators of an extracted span agree.**  For every span of a valid curve in
Bézier form and at every parameter, de Casteljau's algorithm on the control points, and the
span search with the basis functions of the same span as a curve, give the same stored vector
and the same location. -/
theorem bezierSpan_evaluators_agree [IsStrictOrderedRing K] [Precision K] [Precision.Exact K]
    (valid : c.isValid = true) (ok : c.bezierSpan index = .ok s) (t : K) :
    s.toCurve.vectorAt t = s.vectorAt t ∧ s.toCurve.pointAt? t = some (s.pointAt t) := by
  have regular := (regular_of_isValid valid).regular_toCurve ok
  have vector := BezierCurve.vectorAt_toCurve regular t
  refine ⟨vector, ?_⟩
  rw [regular.pointAt?_eq, pointAt, BezierCurve.pointAt, vector]
  rfl

/-- The second span of a rational curve with an unclamped start, two lengths beyond its end. -/
theorem bezierSpan_evaluators_openStart :
    openStart.isValid = true ∧ ∃ s, openStart.bezierSpan 1 = .ok s
      ∧ s.toCurve.vectorAt 3 = [-17, -9] ∧ s.toCurve.pointAt? 3 = some [17 / 9] := by
  have valid : openStart.isValid = true := by decide +kernel
  have ok : openStart.bezierSpan 1
      = .ok ⟨1, .homogeneous [[5 / 2, 3 / 2], [3, 2], [1, 1]]⟩ :=
    eq_ok_of_toOption (by decide +kernel)
  obtain ⟨vector, point⟩ := bezierSpan_evaluators_agree valid ok 3
  refine ⟨valid, _, ok, vector.trans ?_, point.trans ?_⟩
  · decide +kernel
  · decide +kernel

end Curve

end RationalSpline
