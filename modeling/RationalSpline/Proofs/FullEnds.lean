/-
  RationalSpline.Proofs.FullEnds
  ──────────────────────────────
  CURVES WITH FULL ENDS.

  A curve is `Ended` when its knots are the two ends of its domain, each repeated as often
  as the degree, around knots between them of which none is repeated more often.  Its
  values at the ends are its outermost control points.
-/
import RationalSpline.Proofs.RaisedCurve
import RationalSpline.Proofs.Regularity

namespace RationalSpline

open Spline (Clamped)

variable {K : Type} [Field K] [LinearOrder K]

namespace Curve

variable {c e : Curve K}

/-! ## §1. Full ends. -/

/-- A curve with two full ends and no over-full knot between them. -/
structure Ended (c : Curve K) : Prop extends Sound c where
  /-- There are parameters. -/
  lt : c.domain.1 < c.domain.2
  /-- The knots. -/
  values : c.knots.values
    = List.replicate c.degree c.domain.1 ++ c.interior ++ List.replicate c.degree c.domain.2
  /-- Between the ends no knot is repeated more often than the degree. -/
  count : ∀ u, c.interior.count u ≤ c.degree

/-- Two full ends around knots between them. -/
theorem Sound.ended_of_values (h : c.Sound) {a b : K} {mid : List K} (lt : a < b)
    (values : c.knots.values = List.replicate c.degree a ++ mid ++ List.replicate c.degree b)
    (between : ∀ x ∈ mid, a < x ∧ x < b) (count : ∀ u, mid.count u ≤ c.degree) :
    c.Ended ∧ c.domain = (a, b) ∧ c.interior = mid := by
  have domain : c.domain = (a, b) := h.domain_of_clamped (h.clamped lt values between count)
  have interior : c.interior = mid := by
    have inside : mid.filter (fun k => decide (a < k ∧ k < b)) = mid :=
      List.filter_eq_self.2 fun x hx => decide_eq_true (between x hx)
    rw [Curve.interior, domain, values, List.filter_append, List.filter_append, inside,
        List.filter_replicate, List.filter_replicate]
    simp
  refine ⟨⟨h, by rw [domain]; exact lt, ?_, interior.symm ▸ count⟩, domain, interior⟩
  rw [domain, interior]
  exact values

/-- **Clamping gives full ends**, where no knot is over-full. -/
theorem Sound.ended_clampEnds [IsStrictOrderedRing K] (h : c.Sound)
    (lt : c.domain.1 < c.domain.2) (count : ∀ u, c.knots.count u ≤ c.degree) :
    ∃ e, c.clampEnds = .ok e ∧ e.Ended ∧ Keeps c e := by
  obtain ⟨e, ok, sound, keeps, -, -, values⟩ := h.clampEnds lt
  rw [max_eq_right (count _), max_eq_right (count _), ← keeps.degree] at values
  refine ⟨e, ok, (sound.ended_of_values lt values
    (fun x hx => of_decide_eq_true (List.mem_filter.1 hx).2) fun u => ?_).1, keeps⟩
  rw [keeps.degree]
  refine le_trans (List.filter_sublist.count_le u) ?_
  rw [← KnotVector.count_eq_list_count]
  exact count u

/-- Where as many knots as the degree agree, the value is a control point. -/
theorem Sound.definedVector_of_full [IsStrictOrderedRing K] (h : c.Sound) {i j : Nat} {t : K}
    (hi : c.degree ≤ i) (hi' : i < c.pointCount)
    (on : c.spline.knots.onSpan c.domain.2 t i = true) (hj : j ≤ i) (hj' : i ≤ j + c.degree)
    (full : ∀ r < c.degree, c.spline.knots.knot (j + 1 + r) = t) :
    c.definedVector t = c.points.vectors.getD j [] := by
  obtain ⟨F, follows⟩ := h.exists_follows rfl rfl
  obtain ⟨t', low, high⟩ := exists_between (KnotVector.knot_lt_of_onSpan on)
  rw [h.definedVector_eq rfl rfl follows hi hi' on low high,
      follows i hi hi' t' low high j hj hj', stretch_eq_replicate full]

namespace Ended

theorem clamped (h : c.Ended) : Clamped c.degree c.spline.knots c.domain.1 c.domain.2
    (KnotVector.runs c.interior) :=
  h.toSound.clamped h.lt h.values (fun _ hx => between_of_mem_interior hx) h.count

theorem values_padded (h : c.Ended) : c.spline.knots.values
    = List.replicate (c.degree + 1) c.domain.1 ++ c.interior
      ++ List.replicate (c.degree + 1) c.domain.2 := by
  have two := h.two_le_order
  have padded := KnotVector.values_padded h.toSound.degree_pos h.values
  rwa [show c.degree + 1 = c.order from Nat.sub_add_cancel (by omega)] at padded ⊢

theorem pointCount_eq (h : c.Ended) : c.pointCount = c.interior.length + c.degree + 1 := by
  have length := congrArg List.length h.values_padded
  have size : c.spline.knots.values.length = c.points.vectors.length + c.degree + 1 :=
    size_padded_knots h.toSound
  have points : c.points.vectors.length = c.pointCount := rfl
  simp only [List.length_append, List.length_replicate] at length
  omega

/-- No knot is over-full. -/
theorem count_le (h : c.Ended) (u : K) : c.knots.count u ≤ c.degree := by
  rw [KnotVector.count_eq_list_count, h.values, List.count_append, List.count_append,
      List.count_replicate, List.count_replicate]
  have inner := h.count u
  by_cases inside : u ∈ c.interior
  · obtain ⟨low, high⟩ := between_of_mem_interior inside
    rw [if_neg (by simpa using low.ne), if_neg (by simpa using high.ne')]
    omega
  · rw [List.count_eq_zero_of_not_mem inside]
    by_cases first : c.domain.1 = u
    · rw [if_pos (by simpa using first), if_neg (by simpa [← first] using h.lt.ne')]
      exact le_refl _
    · rw [if_neg (by simpa using first)]
      split <;> omega

/-- The same knots under other control points. -/
theorem repointed (h : c.Ended) (r : Repointed c e) : e.Ended := by
  have degree : e.degree = c.degree := by rw [Curve.degree, r.order, Curve.degree]
  refine ((r.sound h.toSound).ended_of_values h.lt ?_
    (fun _ hx => between_of_mem_interior hx) ?_).1
  · rw [r.knots, degree]
    exact h.values
  · rw [degree]
    exact h.count

variable [IsStrictOrderedRing K]

/-- **A curve with full ends is regular, if its weights are positive.** -/
theorem regular (h : c.Ended) (dimension : 1 ≤ c.dimension) (positive : c.points.Positive) :
    c.Regular := by
  have two := h.two_le_order
  have degree : c.degree = c.order - 1 := rfl
  have pointCount := h.pointCount_eq
  have inside : ∀ x ∈ c.interior, c.domain.1 < x ∧ x < c.domain.2 :=
    fun _ hx => between_of_mem_interior hx
  refine h.toSound.regular_of_counts dimension positive ?_ ?_ h.count_le
  · have none : (c.interior ++ List.replicate c.degree c.domain.2).countP
        (fun k => decide (k ≤ c.domain.1)) = 0 := by
      refine List.countP_eq_zero.2 fun x hx => ?_
      rcases List.mem_append.1 hx with hx | hx
      · simpa using (inside x hx).1
      · simpa [List.eq_of_mem_replicate hx] using h.lt
    rw [KnotVector.countUpTo, h.values, List.append_assoc, List.countP_append, none,
        List.countP_replicate]
    split <;> omega
  · rw [KnotVector.countBelow, h.values, List.countP_append, List.countP_append,
        List.countP_replicate, if_pos (decide_eq_true h.lt), List.countP_eq_length.2]
    · omega
    · exact fun x hx => decide_eq_true (inside x hx).2

/-! ## §2. Values at the ends. -/

/-- The first control point is the value at the start. -/
theorem definedVector_start (h : c.Ended) :
    c.definedVector c.domain.1 = c.points.vectors.getD 0 [] := by
  have count := h.pointCount_eq
  have size := size_padded_knots h.toSound
  have points : c.points.vectors.length = c.pointCount := rfl
  have first := h.clamped.first_lt _ (c.spline.knots.knot_mem_drop (i := c.degree + 1) (by omega))
  refine h.toSound.definedVector_of_full (le_refl _) (by omega)
    (KnotVector.onSpan_iff.2 (Or.inl ⟨?_, first, h.lt⟩)) (Nat.zero_le _) (by omega)
    fun r hr => h.clamped.knot_start (by omega)
  exact (h.clamped.knot_start (le_refl _)).le

omit [IsStrictOrderedRing K] in
/-- The last knot before the end lies below it. -/
theorem knot_lt_finish (h : c.Ended) : c.spline.knots.knot (c.pointCount - 1) < c.domain.2 := by
  have count := h.pointCount_eq
  have values := h.values_padded
  have inside : c.pointCount - 1
      < (List.replicate (c.degree + 1) c.domain.1 ++ c.interior).length := by
    rw [List.length_append, List.length_replicate]
    omega
  rw [KnotVector.knot, values, List.getD_append _ _ _ _ inside, List.getD_eq_getElem _ _ inside]
  rcases List.mem_append.1 (List.getElem_mem inside) with first | inner
  · rw [List.eq_of_mem_replicate first]
    exact h.lt
  · exact (between_of_mem_interior inner).2

/-- The last control point is the value at the end. -/
theorem definedVector_finish (h : c.Ended) :
    c.definedVector c.domain.2 = c.points.vectors.getD (c.pointCount - 1) [] := by
  have count := h.pointCount_eq
  have size := size_padded_knots h.toSound
  have points : c.points.vectors.length = c.pointCount := rfl
  have last : ∀ r ≤ c.degree, c.spline.knots.knot (c.pointCount + r) = c.domain.2 :=
    fun r hr => h.clamped.knot_finish size hr
  have finish : c.spline.knots.knot (c.pointCount - 1 + 1) = c.domain.2 := by
    rw [Nat.sub_add_cancel (by omega)]
    exact last 0 (Nat.zero_le _)
  refine h.toSound.definedVector_of_full (by omega) (by omega)
    (KnotVector.onSpan_iff.2 (Or.inr ⟨h.knot_lt_finish, finish, rfl⟩)) (le_refl _)
    (Nat.le_add_right _ _) fun r hr => ?_
  rw [Nat.sub_add_cancel (by omega)]
  exact last r hr.le

end Ended

end Curve

end RationalSpline
