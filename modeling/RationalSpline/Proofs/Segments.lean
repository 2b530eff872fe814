/-
  RationalSpline.Proofs.Segments
  ──────────────────────────────
  SPLITTING AND EXTRACTION GIVE THE SAME SEGMENTS.

  Splitting inserts knots into the whole curve, extraction clamps the few control points
  that act on one span.  Neither changes the form of the span, and the control points of
  a Bézier segment on `[a, b]` are the values of that form at `a, …, a, b, …, b`: so both
  give the same vectors.
-/
import RationalSpline.Proofs.SpanExtraction

namespace RationalSpline.Curve

variable {K : Type} [Field K] [LinearOrder K] {c : Curve K}

/-! ## §1. The spans that are not empty. -/

theorem Regular.length_spanIndices (h : c.Regular) : c.spanIndices.length = c.spanCount := by
  have pairs := congrArg List.length h.map_spanIndices
  rwa [List.length_map, Sequence.length_neighbours] at pairs

/-- The `j`-th of them is the span from the `j`-th boundary to the next one. -/
theorem Regular.knots_spanIndices (h : c.Regular) {j : Nat} (hj : j < c.spanIndices.length) :
    c.knots.knot (c.order - 2 + c.spanIndices[j]) = c.spanVector.getD j 0
      ∧ c.knots.knot (c.order - 1 + c.spanIndices[j]) = c.spanVector.getD (j + 1) 0 := by
  have count := h.length_spanIndices
  have length := h.length_spanVector
  have pair := congrArg (fun pairs => pairs.getD j (0, 0)) h.map_spanIndices
  rw [List.getD_eq_getElem _ _ (by rwa [List.length_map]), List.getElem_map,
      List.getD_eq_getElem _ _ (by rw [Sequence.length_neighbours]; omega)] at pair
  rw [List.getD_eq_getElem _ _ (by omega), List.getD_eq_getElem _ _ (by omega)]
  simpa [Sequence.neighbours] using pair

/-! ## §2. The segments of the split curve. -/

variable [IsStrictOrderedRing K] [Precision K] [Precision.Exact K] [Analytic K]

/-- **Splitting a curve and extracting its spans give the same Bézier pieces.**  The `j`-th
segment of the split curve has, vector by vector, the control points that extraction gives for
the `j`-th span that is not empty. -/
theorem splitBezier_segment_eq_bezierSpan (valid : c.isValid = true)
    (count : c.order < countLimit) :
    ∃ e, c.splitBezier false = ⟨e, none⟩ ∧ e.pointCount = c.degree * c.spanCount + 1
      ∧ c.spanIndices.length = c.spanCount
      ∧ ∀ j (hj : j < c.spanIndices.length), ∃ s, c.bezierSpan c.spanIndices[j] = .ok s
        ∧ s.order = c.order ∧ s.points.isRational = e.isRational
        ∧ s.points.vectors = (e.points.vectors.drop (c.degree * j)).take (c.degree + 1) := by
  have regular := regular_of_isValid valid
  have two := regular.two_le_order
  have enough := regular.order_le
  have degree : c.degree = c.order - 1 := rfl
  obtain ⟨e, split, regular', keeps, full, member⟩ := exists_split valid count
  have segmented := regular'.segmented full regular keeps member
  have points := segmented.count
  rw [keeps.degree] at points
  have number := regular.length_spanIndices
  refine ⟨e, split false, points, number, fun j hj => ?_⟩
  obtain ⟨start, finish⟩ := regular.knots_spanIndices hj
  obtain ⟨reach, lt⟩ := mem_spanIndices.1 (List.getElem_mem hj)
  rw [start, finish] at lt
  obtain ⟨F, follows⟩ := regular.toSound.exists_follows rfl rfl
  obtain ⟨t, low, high⟩ := exists_between lt
  obtain ⟨s, ok, order, -, rational, values⟩ :=
    regular.bezierSpan_values (by omega) start finish lt follows low high
  refine ⟨s, ok, order, rational.trans keeps.rational.symm, ?_⟩
  have room : c.degree * j + c.degree < e.points.vectors.length := by
    have below := Nat.mul_le_mul_left c.degree (show j + 1 ≤ c.spanCount by omega)
    rw [Nat.mul_succ] at below
    show _ < e.pointCount
    omega
  have length : s.points.vectors.length = c.degree + 1 := by
    show s.order = _
    omega
  refine List.ext_getElem ?_ fun r h₁ h₂ => ?_
  · rw [length, List.length_take, List.length_drop]
    omega
  · -- both are values of the form of the span
    have extracted := values r (by omega)
    have piece := segmented.getD_vectors regular'.toSound keeps.degree (keeps.follows rfl follows)
      (k := j) (r := r) (by omega) low high (by omega)
    rw [List.getD_eq_getElem _ _ h₁] at extracted
    rw [List.getD_eq_getElem _ _ (by omega)] at piece
    rw [extracted, List.getElem_take, List.getElem_drop, piece]

/-- The two segments of a rational curve with an unclamped start. -/
theorem splitBezier_segment_openStart :
    openStart.isValid = true ∧ openStart.order < countLimit
      ∧ ∃ e s, openStart.splitBezier false = ⟨e, none⟩ ∧ openStart.bezierSpan 1 = .ok s
        ∧ s.points.vectors = (e.points.vectors.drop 2).take 3 := by
  have valid : openStart.isValid = true := by decide +kernel
  have count : openStart.order < countLimit := by decide
  obtain ⟨e, split, -, -, segments⟩ := splitBezier_segment_eq_bezierSpan valid count
  have indices : openStart.spanIndices = [0, 1] := by decide +kernel
  obtain ⟨s, ok, -, -, vectors⟩ := segments 1 (by rw [indices]; decide)
  refine ⟨valid, count, e, s, split, ?_, vectors⟩
  simpa [indices] using ok

end RationalSpline.Curve
