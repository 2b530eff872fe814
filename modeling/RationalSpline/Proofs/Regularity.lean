/-
  RationalSpline.Proofs.Regularity
  ────────────────────────────────
  REGULAR CURVES UNDER CHANGES OF THEIR KNOTS.

  Reversal, insertion of a knot and clamping of an end keep a curve regular: the ends
  of the domain are counted anew from the knots that each of them leaves, and the new
  control vectors lie in the hull of the old ones, so weights stay positive.
-/
import RationalSpline.Proofs.Clamping
import RationalSpline.Proofs.ControlPolygon

namespace RationalSpline

variable {K : Type} [Field K] [LinearOrder K]

/-! ## §1. Weights in the hull. -/

namespace Point

theorem weight_add {x y : Point K} (size : x.length = y.length) :
    weight (add x y) = weight x + weight y := by
  rcases List.eq_nil_or_concat' x with rfl | ⟨xs, a, rfl⟩
  · obtain rfl : y = [] := List.length_eq_zero_iff.1 size.symm
    simp [weight, add]
  · rcases List.eq_nil_or_concat' y with rfl | ⟨ys, b, rfl⟩
    · simp at size
    · have size' : xs.length = ys.length := by simpa using size
      rw [weight, add, List.zipWith_append size', List.zipWith_cons_cons, List.zipWith_nil_left,
          List.getLastD_concat, weight, weight, List.getLastD_concat, List.getLastD_concat]

theorem weight_blend (a : K) {x y : Point K} (size : x.length = y.length) :
    weight (blend a x y) = weight y * a + weight x * (1 - a) := by
  rw [blend, weight_add (by rw [length_scale, length_scale, size]), weight_scale, weight_scale]

end Point

namespace Curve

variable {c e : Curve K} [IsStrictOrderedRing K]

/-- Vectors of one size with positive weights have such vectors in their hull. -/
theorem InHull.weight_pos {P P' : List (Point K)} {d : Nat} (h : InHull P P')
    (sized : ∀ x ∈ P, x.length = d) (pos : ∀ x ∈ P, 0 < Point.weight x) :
    ∀ x ∈ P', 0 < Point.weight x := by
  refine fun x hx => (h (fun x => x.length = d ∧ 0 < Point.weight x) ?_
    (fun y hy => ⟨sized y hy, pos y hy⟩) x hx).2
  rintro a x y low high ⟨sx, px⟩ ⟨sy, py⟩
  refine ⟨by rw [Point.length_blend, sx, sy, Nat.min_self], ?_⟩
  rw [Point.weight_blend a (sx.trans sy.symm)]
  rcases eq_or_lt_of_le low with rfl | low
  · simpa using px
  · have first := mul_pos py low
    have second := mul_nonneg px.le (sub_nonneg.2 high)
    linarith

/-- **On other knots the weights stay positive.** -/
theorem Keeps.positive (h : Keeps c e) (hc : c.Sound) (positive : c.points.Positive) :
    e.points.Positive := fun rational =>
  h.hull.weight_pos hc.sized (positive (h.rational.symm.trans rational))

/-! ## §2. Counting from the ends of the domain. -/

/-- A sound curve is regular when the ends of its domain are where the counts put them. -/
theorem Sound.regular_of_counts (h : c.Sound) (dimension : 1 ≤ c.dimension)
    (positive : c.points.Positive) (start : c.knots.countUpTo c.domain.1 ≤ c.degree)
    (finish : c.pointCount - 1 ≤ c.knots.countBelow c.domain.2)
    (count : ∀ u, c.knots.count u ≤ c.degree) : c.Regular := by
  obtain ⟨two, enough, size, degree⟩ := h.counts
  have last := h.domain_snd
  exact
    { toSound := h
      dimension_pos := dimension
      first_span := by
        refine not_le.1 fun le => ?_
        have := (h.ordered.knot_le_iff (i := c.order - 1) (u := c.domain.1) (by omega)).1 le
        omega
      last_span := by
        rw [← last]
        exact (h.ordered.knot_lt_iff (by omega)).2 (by omega)
      count_le := count
      weight_pos := ControlPoints.forall_weights_pos_iff.2 positive }

end Curve

/-! ## §3. Reversal. -/

namespace KnotVector

variable [IsStrictOrderedRing K]

theorem countUpTo_invert (U : KnotVector K) (u : K) :
    U.invert.countUpTo (-u) + U.countBelow u = U.size := by
  have mirrored : U.invert.countUpTo (-u) = U.values.countP fun k => !decide (k < u) := by
    simp only [countUpTo, invert, List.countP_map, List.countP_reverse]
    refine List.countP_congr fun k _ => ?_
    simp
  rw [mirrored, countBelow, size, List.length_eq_countP_add_countP (fun k => decide (k < u)),
      Nat.add_comm]
  congr 1
  exact List.countP_congr fun k _ => by simp

theorem countBelow_invert (U : KnotVector K) (u : K) :
    U.invert.countBelow (-u) + U.countUpTo u = U.size := by
  have mirrored : U.invert.countBelow (-u) = U.values.countP fun k => !decide (k ≤ u) := by
    simp only [countBelow, invert, List.countP_map, List.countP_reverse]
    refine List.countP_congr fun k _ => ?_
    simp
  rw [mirrored, countUpTo, size, List.length_eq_countP_add_countP (fun k => decide (k ≤ u)),
      Nat.add_comm]
  congr 1
  exact List.countP_congr fun k _ => by simp

end KnotVector

namespace Curve

variable {c e : Curve K}

theorem positive_invert (h : c.points.Positive) : c.invert.points.Positive :=
  ControlPoints.positive_withVectors fun rational x hx => h rational x (List.mem_reverse.1 hx)

variable [IsStrictOrderedRing K]

/-- **The reversed curve is regular.** -/
theorem Regular.invert (h : c.Regular) : c.invert.Regular := by
  obtain ⟨two, enough, size, degree⟩ := h.counts
  have start := h.countUpTo_start
  have finish := h.countBelow_finish
  refine h.toSound.invert.regular_of_counts h.dimension_pos (positive_invert h.positive) ?_ ?_ ?_
  · rw [h.domain_invert]
    have whole := KnotVector.countUpTo_invert c.knots c.domain.2
    show c.knots.invert.countUpTo (-c.domain.2) ≤ c.degree
    have enough := h.order_le
    omega
  · rw [h.domain_invert, pointCount_invert]
    have whole := KnotVector.countBelow_invert c.knots c.domain.1
    show _ ≤ c.knots.invert.countBelow (-c.domain.1)
    omega
  · intro u
    have count := KnotVector.count_invert c.knots (-u)
    rw [neg_neg] at count
    exact count.trans_le (h.count_le _)

/-! ## §4. Insertion. -/

/-- **A knot that may be inserted keeps a curve regular.** -/
theorem Regular.insertKnot (h : c.Regular) {u : K} {times : Nat}
    (ok : c.insertKnot u times = .ok e) : e.Regular := by
  obtain ⟨start, finish, room, rfl⟩ := h.toSound.inside_of_insertKnot ok
  obtain ⟨sound, keeps, count, values⟩ := h.toSound.insertTimes start.le finish fun _ => room
  have upTo := h.countUpTo_start
  have below := h.countBelow_finish
  have parts := h.ordered.values_eq u
  have whole : c.knots.values = (c.knots.values.filter fun k => decide (k ≤ u))
      ++ c.knots.values.filter fun k => decide (u < k) := by
    rw [h.ordered.filter_le_eq]
    exact parts
  refine sound.regular_of_counts (keeps.dimension ▸ h.dimension_pos)
    (keeps.positive h.toSound h.positive) ?_ ?_ fun v => ?_
  · rw [keeps.domain, keeps.degree, ← upTo, KnotVector.countUpTo, values, KnotVector.countUpTo]
    conv_rhs => rw [whole]
    simp only [List.countP_append, List.countP_replicate, not_le.2 start, decide_false]
    simp
  · rw [keeps.domain, count, KnotVector.countBelow, values]
    rw [KnotVector.countBelow] at below
    conv at below => lhs; rw [whole]
    simp only [List.countP_append, List.countP_replicate, finish, decide_true, if_true] at below ⊢
    omega
  · rw [keeps.degree, KnotVector.count_eq_list_count, values]
    have before := h.count_le v
    rw [KnotVector.count_eq_list_count, whole] at before
    simp only [List.count_append, List.count_replicate] at before ⊢
    split
    · next same =>
        obtain rfl := eq_of_beq same
        have inner : c.knots.count u ≤ c.spline.knots.count u := by
          show c.knots.values.countP _ ≤ (_ :: c.knots.values ++ [_]).countP _
          rw [List.countP_append, List.countP_cons]
          omega
        rw [KnotVector.count_eq_list_count, whole, List.count_append] at inner
        omega
    · omega

end Curve

/-! ## §5. Clamping. -/

namespace KnotVector

section Clamped

variable {U V : KnotVector K} {a b : K} {n : Nat}
  (values : V.values = List.replicate n a ++ U.values.filter fun k => decide (a < k))

include values

/-- Where `n` copies of `a` stand for the knots up to it, as many lie up to it. -/
theorem countUpTo_of_clamped : V.countUpTo a = n := by
  have none : (U.values.filter fun k => decide (a < k)).countP (fun k => decide (k ≤ a)) = 0 := by
    refine List.countP_eq_zero.2 fun k hk => ?_
    simpa using (List.mem_filter.1 hk).2
  rw [countUpTo, values, List.countP_append, none, List.countP_replicate,
      if_pos (decide_eq_true (le_refl a)), Nat.add_zero]

/-- If they stand for as many knots, the counts beyond `a` stay. -/
theorem countBelow_of_clamped (ordered : U.Ordered) (same : U.countUpTo a = n) (lt : a < b) :
    V.countBelow b = U.countBelow b := by
  have upTo : (U.values.take n).countP (fun k => decide (k < b)) = n := by
    rw [← same, ordered.take_countUpTo, List.countP_filter, countUpTo]
    refine List.countP_congr fun k _ => ?_
    simp only [Bool.and_eq_true, decide_eq_true_eq]
    exact ⟨fun e => e.2, fun e => ⟨lt_of_le_of_lt e lt, e⟩⟩
  calc V.countBelow b
      = n + (U.values.drop n).countP (fun k => decide (k < b)) := by
        rw [countBelow, values, List.countP_append, List.countP_replicate,
            if_pos (decide_eq_true lt), ← ordered.drop_countUpTo, same]
    _ = (U.values.take n).countP (fun k => decide (k < b))
          + (U.values.drop n).countP (fun k => decide (k < b)) := by rw [upTo]
    _ = U.countBelow b := by rw [← List.countP_append, List.take_append_drop, countBelow]

/-- No knot is repeated more often than before, or than there are copies. -/
theorem count_le_of_clamped (le : ∀ u, U.count u ≤ n) (u : K) : V.count u ≤ n := by
  rw [count_eq_list_count, values, List.count_append, List.count_replicate]
  split
  · next same =>
      obtain rfl := eq_of_beq same
      have none : (U.values.filter fun k => decide (a < k)).count a = 0 :=
        List.count_eq_zero.2 fun hk => by simp at hk
      omega
  · have whole := le u
    rw [count_eq_list_count] at whole
    have part := (List.filter_sublist (l := U.values) (p := fun k => decide (a < k))).count_le u
    omega

end Clamped

end KnotVector

namespace Curve

variable {c e : Curve K} [IsStrictOrderedRing K]

/-- **Clamping the start keeps a curve regular, and the number of its control points.** -/
theorem Regular.clampStart (h : c.Regular) :
    ∃ e, c.clampStart = .ok e ∧ e.Regular ∧ Keeps c e ∧ e.pointCount = c.pointCount := by
  obtain ⟨e, ok, sound, keeps, -, values⟩ := h.toSound.clampStart h.domain_lt
  rw [max_eq_right (h.count_le _)] at values
  have upTo := h.countUpTo_start
  -- as many knots are dropped as copies take their place
  have count : e.pointCount = c.pointCount := by
    obtain ⟨two, enough, size, degree⟩ := h.counts
    obtain ⟨-, enough', size', -⟩ := sound.counts
    rw [keeps.order] at enough' size'
    have length := congrArg List.length values
    rw [List.length_append, List.length_replicate, ← h.ordered.drop_countUpTo, upTo,
        List.length_drop] at length
    change e.knots.size = _ + (c.knots.size - _) at length
    omega
  refine ⟨e, ok, sound.regular_of_counts (keeps.dimension ▸ h.dimension_pos)
    (keeps.positive h.toSound h.positive) ?_ ?_ fun v => ?_, keeps, count⟩
  · rw [keeps.domain, keeps.degree]
    exact (KnotVector.countUpTo_of_clamped values).le
  · rw [keeps.domain, count, KnotVector.countBelow_of_clamped values h.ordered upTo h.domain_lt,
        h.countBelow_finish]
  · rw [keeps.degree]
    exact KnotVector.count_le_of_clamped values h.count_le v

/-- **Clamping either end keeps a curve regular.** -/
theorem Regular.clampEnd (h : c.Regular) (side : CurveEnd) :
    ∃ e, c.clampEnd side = .ok e ∧ e.Regular ∧ Keeps c e ∧ e.pointCount = c.pointCount := by
  cases side with
  | start => exact h.clampStart
  | finish =>
      obtain ⟨e, ok, regular, keeps, count⟩ := h.invert.clampStart
      refine ⟨e.invert, ?_, regular.invert, keeps.invert h.toSound regular.toSound, ?_⟩
      · show c.invert.clampStart.map Curve.invert = _
        rw [ok]
        rfl
      · rw [pointCount_invert, count, pointCount_invert]

/-- **So does clamping both.** -/
theorem Regular.regular_clampEnds (h : c.Regular) (ok : c.clampEnds = .ok e) : e.Regular := by
  obtain ⟨b, ok₁, regular₁, -, -⟩ := h.clampEnd .start
  obtain ⟨e', ok₂, regular₂, -, -⟩ := regular₁.clampEnd .finish
  have whole : c.clampEnds = .ok e' := by
    unfold Curve.clampEnds
    rw [ok₁]
    exact ok₂
  cases whole.symm.trans ok
  exact regular₂

end Curve

end RationalSpline
