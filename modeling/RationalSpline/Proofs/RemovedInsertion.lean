/-
  RationalSpline.Proofs.RemovedInsertion
  ──────────────────────────────────────
  REMOVAL UNDOES INSERTION.

  An inserted knot replaces control points by combinations `(1 - a)·P j + a·P (j + 1)`
  in which `a` is the position of the knot in a support.  Removal divides by `a` or by
  `1 - a`, which are not 0 as the knot lies inside the support, so both sweeps find the
  points before the insertion, and where they meet they agree.  Several copies are
  removed one after the other, each as the last of its run.
-/
import RationalSpline.Proofs.Removal
import RationalSpline.Proofs.Insertion

namespace RationalSpline

variable {K : Type} [Field K] [LinearOrder K] {d : Nat}

/-! ## §1. Lists. -/

/-- A part of a list, by its indices. -/
theorem Sequence.take_drop_eq_map {β : Type} {values : List β} {i n : Nat}
    (inside : i + n ≤ values.length) (b : β) :
    (values.drop i).take n = (List.range' i n).map fun j => values.getD j b := by
  refine List.ext_getElem (by simp; omega) fun r h₁ h₂ => ?_
  simp only [List.length_map, List.length_range'] at h₂
  rw [List.getElem_take, List.getElem_drop, List.getElem_map, List.getElem_range',
      List.getD_eq_getElem _ _ (by omega)]
  congr 1
  omega

/-- A part of a list whose entries are all the same. -/
theorem Sequence.take_drop_eq_replicate {β : Type} {values : List β} {i n : Nat} {b : β}
    (copies : ∀ r < n, values[i + r]? = some b) :
    (values.drop i).take n = List.replicate n b := by
  refine List.ext_getElem? fun r => ?_
  rw [List.getElem?_take, List.getElem?_replicate, List.getElem?_drop]
  split
  · next inside => exact copies r inside
  · rfl

/-- The last of the knots equal to a value. -/
theorem KnotVector.Ordered.lastIndex?_eq {U : KnotVector K} (h : U.Ordered) {u : K}
    (pos : 0 < U.count u) :
    Sequence.lastIndex? (· == u) U.values = some (U.countUpTo u - 1) := by
  have split := U.countUpTo_eq u
  have size := U.countUpTo_le_size u
  have value := (h.knot_eq_iff (u := u) (i := U.countUpTo u - 1) (by omega)).2
    ⟨by omega, by omega⟩
  obtain ⟨r, found, le, inside, same⟩ :=
    U.exists_lastIndex?_knot (show U.countUpTo u - 1 < U.size by omega)
  rw [value] at same
  simp only [value] at found
  have upTo : r < U.countUpTo u := (h.knot_le_iff inside).1 same.le
  rw [found]
  congr 1
  omega

/-! ## §2. The two sweeps. -/

namespace Point

/-- What was combined with `v` is found by taking the share of `v` off. -/
theorem unblend_left {a : K} (nonzero : a ≠ 0) (v w : Fin d → K) :
    divide (sub (blend a (ofVec v) (ofVec w)) (scale (ofVec v) (1 - a))) a = ofVec w := by
  rw [blend_ofVec, scale_ofVec, sub_ofVec, divide_ofVec]
  congr 1
  rw [mix, add_sub_cancel_left, smul_smul, inv_mul_cancel₀ nonzero, one_smul]

theorem unblend_right {a : K} (nonzero : 1 - a ≠ 0) (v w : Fin d → K) :
    divide (sub (blend a (ofVec v) (ofVec w)) (scale (ofVec w) a)) (1 - a) = ofVec v := by
  rw [blend_ofVec, scale_ofVec, sub_ofVec, divide_ofVec]
  congr 1
  rw [mix, add_sub_cancel_right, smul_smul, inv_mul_cancel₀ nonzero, one_smul]

omit [LinearOrder K] in
/-- A stored vector, by its coordinates. -/
theorem ofVec_coords_getD {points : List (Point K)} (sized : ∀ x ∈ points, x.length = d) {i : Nat}
    (hi : i < points.length) : ofVec (coords d (points.getD i [])) = points.getD i [] := by
  rw [List.getD_eq_getElem _ _ hi]
  exact ofVec_coords (sized _ (List.getElem_mem hi))

/-- A point is its own midpoint. -/
theorem scale_add_self [IsStrictOrderedRing K] (v : Fin d → K) :
    scale (add (ofVec v) (ofVec v)) Scalar.half = ofVec v := by
  rw [add_ofVec, scale_ofVec, Scalar.half_eq, ← two_smul K v, smul_smul]
  norm_num

end Point

namespace Spline

/-- `x` combines two neighbours at the position of `u` in the support `j`, and is neither. -/
structure Combines (U : KnotVector K) (p : Nat) (u : K) (P : Nat → Fin d → K) (j : Nat)
    (x : Point K) : Prop where
  /-- It is combined. -/
  point : x = Point.blend (ratio U p u j) (Point.ofVec (P (j - 1))) (Point.ofVec (P j))
  /-- The second neighbour has a share in it. -/
  ne_zero : ratio U p u j ≠ 0
  /-- The first neighbour has a share in it. -/
  ne_one : ratio U p u j ≠ 1

variable {U : KnotVector K} {p : Nat} {u : K} {P : Nat → Fin d → K} {Q : Nat → Point K}

/-- **The upward sweep finds what was combined**, from the point before. -/
theorem sweepUp_eq {i n : Nat} (h : ∀ j, i < j → j ≤ i + n → Combines U p u P j (Q j)) :
    sweepUp U p u (i + 1) (Point.ofVec (P i)) ((List.range' (i + 1) n).map Q)
      = (List.range' (i + 1) n).map fun j => Point.ofVec (P j) := by
  induction n generalizing i with
  | zero => rfl
  | succ n ih =>
      have first := h (i + 1) (by omega) (by omega)
      have solved : Point.divide (Point.sub (Q (i + 1)) (Point.scale (Point.ofVec (P i))
          (1 - ratio U p u (i + 1)))) (ratio U p u (i + 1)) = Point.ofVec (P (i + 1)) := by
        rw [first.point]
        exact Point.unblend_left first.ne_zero _ _
      rw [List.range'_succ, List.map_cons, List.map_cons, sweepUp, solved,
          ih fun j low high => h j (by omega) (by omega)]

/-- **The downward sweep finds it from the point behind.** -/
theorem sweepDown_eq {j n : Nat} (room : n ≤ j)
    (h : ∀ i, j < i + n → i ≤ j → Combines U p u P i (Q i)) :
    (sweepDown U p u j (Point.ofVec (P j)) ((List.range' (j + 1 - n) n).map Q).reverse).reverse
      = (List.range' (j - n) n).map fun i => Point.ofVec (P i) := by
  induction n generalizing j with
  | zero => rfl
  | succ n ih =>
      have last := h j (by omega) le_rfl
      have solved : Point.divide (Point.sub (Q j) (Point.scale (Point.ofVec (P j))
          (ratio U p u j))) (1 - ratio U p u j) = Point.ofVec (P (j - 1)) := by
        rw [last.point]
        exact Point.unblend_right (sub_ne_zero.2 last.ne_one.symm) _ _
      have rest := ih (j := j - 1) (by omega) fun i low high => h i (by omega) (by omega)
      rw [show j - 1 + 1 - n = j - n by omega, show j - 1 - n = j - (n + 1) by omega] at rest
      rw [show j + 1 - (n + 1) = j - n by omega, List.range'_concat, List.map_append,
          List.reverse_append, Nat.one_mul, Nat.sub_add_cancel (by omega), List.map_singleton,
          List.reverse_singleton, List.singleton_append, sweepDown, solved, List.reverse_cons, rest,
          List.range'_concat, List.map_append, Nat.one_mul,
          show j - (n + 1) + n = j - 1 by omega, List.map_singleton]

variable {S : Spline K}

/-- **Combined points are replaced by those that were combined.** -/
theorem unblend_eq [IsStrictOrderedRing K] {first last : Nat} (pos : 0 < first) (le : first ≤ last)
    (inside : last + 1 < S.points.length)
    (before : S.points.getD (first - 1) [] = Point.ofVec (P (first - 1)))
    (after : S.points.getD (last + 1) [] = Point.ofVec (P last))
    (h : ∀ j, first ≤ j → j ≤ last → Combines S.knots S.degree u P j (S.points.getD j [])) :
    S.unblend u first last
      = (List.range' first (last - first)).map fun j => Point.ofVec (P j) := by
  obtain ⟨i, rfl⟩ : ∃ i, first = i + 1 := ⟨first - 1, by omega⟩
  have low := fun n (hn : n ≤ last - i) => sweepUp_eq (Q := fun j => S.points.getD j []) (i := i)
    (n := n) fun j low high => h j low (by omega)
  have high := fun n (hn : n ≤ last - i) => sweepDown_eq (Q := fun j => S.points.getD j [])
    (j := last) (n := n) (by omega) fun j low high => h j (by omega) high
  unfold unblend
  dsimp only
  rw [Nat.add_sub_cancel] at before ⊢
  rw [before, after, Sequence.take_drop_eq_map (by omega) [],
      Sequence.take_drop_eq_map (by omega) []]
  split
  · next even =>
      rw [low _ (by omega), high _ (by omega), ← List.map_append]
      congr 1
      rw [show last - (last - (i + 1) + 1) / 2 = i + 1 + (last - (i + 1) + 1) / 2 by omega,
          List.range'_append_1]
      congr 1
      omega
  · next odd =>
      -- both sweeps end with the point in the middle
      obtain ⟨m, rfl⟩ : ∃ m, last = i + 2 * (m + 1) := ⟨(last - (i + 1) + 1) / 2 - 1, by omega⟩
      have steps : (i + 2 * (m + 1) - (i + 1) + 1) / 2 = m + 1 := by omega
      have middle : i + 2 * (m + 1) - (m + 1) = i + 1 + m := by omega
      have front : ((List.range' (i + 1) (m + 1)).map fun j => Point.ofVec (P j))
          = ((List.range' (i + 1) m).map fun j => Point.ofVec (P j))
            ++ [Point.ofVec (P (i + 1 + m))] := by
        rw [List.range'_concat, List.map_append, Nat.one_mul, List.map_singleton]
      have back : ((List.range' (i + 1 + m) (m + 1)).map fun j => Point.ofVec (P j))
          = Point.ofVec (P (i + 1 + m))
            :: (List.range' (i + 1 + m + 1) m).map fun j => Point.ofVec (P j) := by
        rw [List.range'_succ, List.map_cons]
      have first := (low (m + 1) (by omega)).trans front
      have second := high (m + 1) (by omega)
      rw [middle, back] at second
      have second' := congrArg List.reverse second
      rw [List.reverse_reverse, List.reverse_cons] at second'
      rw [steps, first, second', List.getLastD_concat, List.getLastD_concat, List.dropLast_concat,
          List.dropLast_concat, List.reverse_reverse, Point.scale_add_self, ← back,
          ← List.map_append, List.range'_append_1]
      congr 2
      omega

/-! ## §3. One knot. -/

namespace Spans

/-- Around the span of `u`, the longer spline combines neighbours of the shorter one. -/
theorem combines (h : S.Spans u) (room : S.knots.count u + 1 ≤ S.degree)
    (sized : ∀ x ∈ S.points, x.length = d) {j : Nat} (low : S.place u < j + S.degree)
    (high : j + S.knots.count u ≤ S.place u) :
    Combines (S.insert u).knots S.degree u (fun i => Point.coords d (S.points.getD i [])) j
      ((S.insert u).points.getD j []) := by
  have place := h.place_eq
  have start := h.degree_lt_countUpTo
  have finish := h.countUpTo_le_length
  have size := h.size_eq
  have vector : ∀ i < S.points.length, Point.ofVec (Point.coords d (S.points.getD i []))
      = S.points.getD i [] := fun i => Point.ofVec_coords_getD sized
  have below := h.knot_lt (i := j) (by omega)
  have above := h.lt_knot (i := j + S.degree) (by omega) (by omega)
  -- the support loses its last knot to `u`
  have position : ratio (S.insert u).knots S.degree u j
      = (u - S.knots.knot j) / (S.knots.knot (j + S.degree) - S.knots.knot j) := by
    rw [ratio, h.knot_insert, h.knot_insert, if_pos (by omega), if_neg (by omega),
        if_neg (by omega), show j + (S.degree + 1) - 1 = j + S.degree by omega]
  have width : S.knots.knot (j + S.degree) - S.knots.knot j ≠ 0 :=
    sub_ne_zero.2 (below.trans above).ne'
  refine ⟨?_, ?_, ?_⟩
  · rw [getD_insert_between low high (by omega) (by omega), position, vector _ (by omega),
        vector _ (by omega)]
  · rw [position]
    exact div_ne_zero (sub_ne_zero.2 below.ne') width
  · rw [position, Ne, div_eq_one_iff_eq width, sub_left_inj]
    exact above.ne

/-- The new knot. -/
theorem knot_insert_self (h : S.Spans u) : (S.insert u).knots.knot (S.place u + 1) = u := by
  rw [h.knot_insert, if_neg (by omega), if_pos rfl]

/-- Without it the knots are those before. -/
theorem eraseIdx_insert (h : S.Spans u) :
    (S.insert u).knots.values.eraseIdx (S.place u + 1) = S.knots.values := by
  have place := h.place_eq
  have finish := h.countUpTo_le_length
  have size := h.size_eq
  have head : (S.knots.values.take (S.place u + 1)).length = S.place u + 1 := by
    rw [List.length_take]
    show min _ S.knots.size = _
    omega
  show (S.knots.values.take (S.place u + 1) ++ u :: S.knots.values.drop (S.place u + 1)).eraseIdx
    (S.place u + 1) = _
  rw [List.eraseIdx_append_of_length_le head.le, head, Nat.sub_self, List.eraseIdx_cons_zero,
      List.take_append_drop]

/-- The points that insertion copies. -/
theorem take_drop_insert (h : S.Spans u) (room : S.knots.count u + 1 ≤ S.degree) :
    (S.insert u).points.take (S.place u + 1 - S.degree)
        = S.points.take (S.place u + 1 - S.degree)
      ∧ (S.insert u).points.drop (S.place u - S.knots.count u + 1)
        = S.points.drop (S.place u - S.knots.count u) := by
  have place := h.place_eq
  have start := h.degree_lt_countUpTo
  have finish := h.countUpTo_le_length
  have head : (S.points.take (S.place u - S.degree + 1)).length = S.place u + 1 - S.degree := by
    rw [List.length_take]
    omega
  constructor
  · show (S.points.take (S.place u - S.degree + 1) ++ _ ++ _).take _ = _
    rw [List.append_assoc, List.take_append_of_le_length head.ge, List.take_take]
    congr 1
    omega
  · refine List.drop_left' ?_
    rw [List.length_append, head, length_round, List.length_take, List.length_drop]
    omega

/-- The points that insertion combines are found again. -/
theorem unblend_insert [IsStrictOrderedRing K] (h : S.Spans u)
    (room : S.knots.count u + 1 ≤ S.degree) (sized : ∀ x ∈ S.points, x.length = d) :
    (S.insert u).unblend u (S.place u + 1 - S.degree) (S.place u - S.knots.count u)
      = (S.points.drop (S.place u + 1 - S.degree)).take
          (S.place u - S.knots.count u - (S.place u + 1 - S.degree)) := by
  have place := h.place_eq
  have start := h.degree_lt_countUpTo
  have finish := h.countUpTo_le_length
  have longer := h.points_length (by omega)
  have vector : ∀ i < S.points.length, Point.ofVec (Point.coords d (S.points.getD i []))
      = S.points.getD i [] := fun i => Point.ofVec_coords_getD sized
  rw [unblend_eq (P := fun i => Point.coords d (S.points.getD i [])) (by omega) (by omega)
    (by omega), Sequence.take_drop_eq_map (by omega) []]
  · refine List.map_congr_left fun i hi => vector i ?_
    have := (List.mem_range'_1.1 hi).2
    omega
  · rw [getD_insert_before (by omega) (by omega), vector _ (by omega)]
  · rw [getD_insert_after (by omega) (by omega) (by omega) (by omega), Nat.add_sub_cancel,
        vector _ (by omega)]
  · intro j low high
    exact h.combines room sized (by omega) (by omega)

/-- **Removal undoes one insertion.** -/
theorem remove_insert [IsStrictOrderedRing K] (h : S.Spans u)
    (room : S.knots.count u + 1 ≤ S.degree) (sized : ∀ x ∈ S.points, x.length = d) :
    (S.insert u).remove (S.place u + 1) = S := by
  have place := h.place_eq
  have start := h.degree_lt_countUpTo
  obtain ⟨before, after⟩ := h.take_drop_insert room
  have points : (S.insert u).points.take (S.place u + 1 - S.degree)
        ++ (S.insert u).unblend u (S.place u + 1 - S.degree) (S.place u - S.knots.count u)
        ++ (S.insert u).points.drop (S.place u - S.knots.count u + 1) = S.points := by
    obtain ⟨n, last⟩ : ∃ n, S.place u - S.knots.count u = S.place u + 1 - S.degree + n :=
      ⟨S.place u - S.knots.count u - (S.place u + 1 - S.degree), by omega⟩
    rw [before, h.unblend_insert room sized, after, last, Nat.add_sub_cancel_left,
        List.append_assoc, ← List.drop_drop, List.take_append_drop, List.take_append_drop]
  unfold remove
  dsimp only
  rw [h.knot_insert_self, h.count_insert, Nat.add_sub_add_right, h.eraseIdx_insert]
  exact congrArg (Spline.mk S.degree S.knots) points

/-- The inserted knot can be removed. -/
theorem removable_insert (h : S.Spans u) (room : S.knots.count u + 1 ≤ S.degree) :
    (S.insert u).removable (S.place u + 1) = true := by
  have place := h.place_eq
  have start := h.degree_lt_countUpTo
  have finish := h.countUpTo_le_length
  have size := h.size_eq
  have longer := h.points_length (by omega)
  unfold removable
  dsimp only
  rw [h.knot_insert_self, h.count_insert, longer, size_knots_insert, decide_eq_true_eq]
  show S.degree < _ ∧ _ ∧ _ ≤ S.degree ∧ _
  omega

/-! ## §4. Several copies. -/

/-- **Each removal takes the last copy**, wherever in the run of `u` the indices begin. -/
theorem removeEach_insertTimes [IsStrictOrderedRing K] (h : S.Spans u) {low times : Nat}
    (room : 0 < times → S.knots.count u + times ≤ S.degree)
    (sized : ∀ x ∈ S.points, x.length = d) (begins : S.place u ≤ low + S.knots.count u)
    (within : low ≤ S.place u) :
    Curve.removeEach (S.insertTimes u times) (downFrom low times) = some S := by
  induction times with
  | zero => rfl
  | succ times ih =>
      have room' : 0 < times → S.knots.count u + times ≤ S.degree := fun _ => by omega
      obtain ⟨spans, degree, count⟩ := h.insertTimes room'
      have place := h.place_insertTimes room'
      have last := spans.insert (by omega)
      have place' := h.place_insertTimes room
      have value : ((S.insertTimes u times).insert u).knots.knot (low + times + 1) = u :=
        last.knot_eq (by
          show _ ≤ (S.insertTimes u (times + 1)).place u
          omega) (by
          show (S.insertTimes u (times + 1)).place u < _
          rw [spans.count_insert]
          omega)
      have found : Sequence.lastIndex? (· == u) ((S.insertTimes u times).insert u).knots.values
          = some ((S.insertTimes u times).place u + 1) := by
        rw [last.ordered.lastIndex?_eq (by rw [spans.count_insert]; omega)]
        rw [← last.place_eq, place]
        exact congrArg some place'
      show Curve.removeEach ((S.insertTimes u times).insert u) (downFrom low (times + 1)) = _
      rw [downFrom_succ, Curve.removeEach, value, found, Option.getD_some, remove?,
          if_pos (spans.removable_insert (by omega)),
          spans.remove_insert (by omega) (sized_insertTimes sized), Option.bind_some]
      exact ih room'

end Spans

end Spline

/-! ## §5. Knots between the ends. -/

namespace KnotVector

variable {U W : KnotVector K} {order : Nat}

/-- The knot that padding adds depends on the knots up to the domain only. -/
theorem superfluous_start_congr (size : 2 ≤ U.size) (size' : 2 ≤ W.size)
    (same : ∀ i ≤ order - 2, W.knot i = U.knot i) :
    W.superfluous order .start = U.superfluous order .start := by
  have clamped : W.isClamped order .start = U.isClamped order .start := by
    simp only [isClamped, same 0 (Nat.zero_le _), same _ le_rfl]
  unfold superfluous
  rw [clamped, same 0 (Nat.zero_le _)]
  by_cases full : U.isClamped order .start = true
  · rw [if_pos (.inl full), if_pos (.inl full)]
  · -- an order of 2 clamps the end
    have second : 1 ≤ order - 2 := by
      by_contra low
      exact full (by simp [isClamped, show order - 2 = 0 by omega])
    rw [if_neg (by simp [full]; omega), if_neg (by simp [full]; omega), same 1 second]

theorem superfluous_finish_congr (size : 2 ≤ U.size) (size' : 2 ≤ W.size) (two : 2 ≤ order)
    (same : ∀ i ≤ order - 2, W.knot (W.size - 1 - i) = U.knot (U.size - 1 - i)) :
    W.superfluous order .finish = U.superfluous order .finish := by
  have domain : ∀ n, n + 1 - order = n - 1 - (order - 2) := fun n => by omega
  have last := same 0 (Nat.zero_le _)
  rw [Nat.sub_zero, Nat.sub_zero] at last
  have clamped : W.isClamped order .finish = U.isClamped order .finish := by
    simp only [isClamped, domain, last, same _ le_rfl]
  unfold superfluous
  rw [clamped, last]
  by_cases full : U.isClamped order .finish = true
  · rw [if_pos (.inl full), if_pos (.inl full)]
  · have second : 1 ≤ order - 2 := by
      by_contra low
      exact full (by simp [isClamped, domain, show order - 2 = 0 by omega])
    rw [if_neg (by simp [full]; omega), if_neg (by simp [full]; omega)]
    have before := same 1 second
    rw [Nat.sub_sub, Nat.sub_sub] at before
    rw [before]

end KnotVector

namespace Curve

open Spline (downFrom)

variable {c e : Curve K} {u : K} {times : Nat}

theorem withSpline_withSpline {α : Type} (c : Curve α) (S T : Spline α) :
    (c.withSpline T).withSpline S = c.withSpline S := by
  obtain ⟨dimension, order, points, knots⟩ := c
  cases points <;> rfl

theorem ne_zero_of_insertKnot (ok : c.insertKnot u times = .ok e) : times ≠ 0 := by
  rintro rfl
  simp [insertKnot] at ok

/-- Copies of a number that is inserted stand between the ends of the domain. -/
theorem Sound.copies_inside (h : c.Sound) (start : c.domain.1 < u) (finish : u < c.domain.2)
    {i : Nat} (copy : c.knots.values[i]? = some u) :
    c.order - 1 ≤ i ∧ i < c.pointCount - 1 := by
  obtain ⟨two, enough, size, degree⟩ := h.counts
  obtain ⟨inside, entry⟩ := List.getElem?_eq_some_iff.1 copy
  have value : c.knots.knot i = u := by rw [KnotVector.knot_eq_getElem _ inside, entry]
  have last := h.domain_snd
  have low : c.order - 2 < i :=
    h.ordered.lt_of_knot_lt (by omega) (show c.domain.1 < c.knots.knot i by rwa [value])
  have high : i < c.pointCount - 1 :=
    h.ordered.lt_of_knot_lt inside (by rwa [value, ← last])
  exact ⟨by omega, high⟩

variable [IsStrictOrderedRing K]

/-- Copies inserted between the ends of the domain leave the end knots that padding adds. -/
theorem Sound.superfluous_insertTimes (h : c.Sound) (start : c.domain.1 < u)
    (finish : u < c.domain.2) (room : 0 < times → c.spline.knots.count u + times ≤ c.degree)
    (side : CurveEnd) :
    (c.withSpline (c.spline.insertTimes u times)).knots.superfluous c.order side
      = c.knots.superfluous c.order side := by
  obtain ⟨after, keeps, count, values⟩ := h.insertTimes start.le finish room
  obtain ⟨two, enough, size, -⟩ := h.counts
  have size' : (c.withSpline (c.spline.insertTimes u times)).knots.size = c.knots.size + times := by
    obtain ⟨-, -, total, -⟩ := after.counts
    rw [count, keeps.order] at total
    omega
  have fits := c.knots.countUpTo_le_size u
  -- the knots up to the start of the domain and from its end on stay
  have low : c.order - 2 < c.knots.countUpTo u := (h.ordered.knot_le_iff (by omega)).1 start.le
  have high : c.knots.countUpTo u ≤ c.knots.size + 1 - c.order := by
    by_contra lt
    exact absurd ((h.ordered.knot_le_iff (by omega)).2 (not_le.1 lt)) (not_le.2 finish)
  rw [← h.ordered.take_countUpTo, ← h.ordered.drop_countUpTo] at values
  cases side with
  | start =>
      refine KnotVector.superfluous_start_congr (by omega) (by omega) fun i hi => ?_
      rw [KnotVector.knot, values, Sequence.getD_splice_before fits _ _ (by omega)]
      rfl
  | finish =>
      refine KnotVector.superfluous_finish_congr (by omega) (by omega) two fun i hi => ?_
      have shifted := Sequence.getD_splice_after fits (List.replicate times u) 0
        (i := c.knots.size - 1 - i) (by omega)
      rw [List.length_replicate] at shifted
      rw [size', show c.knots.size + times - 1 - i = c.knots.size - 1 - i + times by omega,
          KnotVector.knot, values, shifted]
      rfl

/-- **Padding the longer vector anew adds the old end knots.** -/
theorem Sound.spline_insertTimes (h : c.Sound) (start : c.domain.1 < u) (finish : u < c.domain.2)
    (room : 0 < times → c.spline.knots.count u + times ≤ c.degree) :
    (c.withSpline (c.spline.insertTimes u times)).spline = c.spline.insertTimes u times := by
  obtain ⟨-, -, -, values⟩ := h.insertTimes start.le finish room
  have spans := h.spans start.le finish
  obtain ⟨-, degree, -⟩ := spans.insertTimes room
  have order : (c.spline.insertTimes u times).degree + 1 = c.order := by
    have two := h.two_le_order
    rw [degree]
    show c.order - 1 + 1 = c.order
    omega
  have padded : (c.withSpline (c.spline.insertTimes u times)).knots.padded c.order
      = (c.spline.insertTimes u times).knots := by
    refine congrArg KnotVector.mk ?_
    rw [h.superfluous_insertTimes start finish room, h.superfluous_insertTimes start finish room,
        values, spans.values_insertTimes room, (h.filter_padded start.le finish).1,
        (h.filter_padded start.le finish).2]
    simp
  show Spline.mk _ ((c.withSpline _).knots.padded ((c.spline.insertTimes u times).degree + 1))
    (c.points.withVectors _).vectors = _
  rw [order, padded, ControlPoints.vectors_withVectors]
  rfl

/-- One place up, copies of `u` are among its run in the padded vector. -/
theorem Sound.bounds_of_copies (h : c.Sound) (start : c.domain.1 < u) (finish : u < c.domain.2)
    (room : c.spline.knots.count u + times ≤ c.degree) {index : Nat} (pos : 0 < times)
    (copies : ∀ r < times,
      (c.withSpline (c.spline.insertTimes u times)).knots.values[index + r]? = some u) :
    c.spline.place u ≤ index + c.spline.knots.count u ∧ index ≤ c.spline.place u := by
  have spans := h.spans start.le finish
  have spline := h.spline_insertTimes start finish fun _ => room
  obtain ⟨spans', -, total⟩ := spans.insertTimes (u := u) fun _ => room
  have place := spans.place_insertTimes fun _ => room
  have place' := spans'.place_eq
  have split := (c.spline.insertTimes u times).knots.countUpTo_eq u
  have padded : ∀ r < times,
      (c.spline.insertTimes u times).knots.countBelow u ≤ index + r + 1
        ∧ index + r + 1 < (c.spline.insertTimes u times).knots.countUpTo u := fun r hr => by
    obtain ⟨inside, entry⟩ := List.getElem?_eq_some_iff.1 (copies r hr)
    have size : index + r + 1 < (c.spline.insertTimes u times).knots.size := by
      rw [← spline, size_knots_spline]
      show _ < (c.withSpline _).knots.values.length + 2
      omega
    refine (spans'.ordered.knot_eq_iff size).1 ?_
    calc (c.spline.insertTimes u times).knots.knot (index + r + 1)
        = (c.withSpline (c.spline.insertTimes u times)).spline.knots.knot (index + r + 1) := by
          rw [spline]
      _ = (c.withSpline (c.spline.insertTimes u times)).knots.knot (index + r) :=
          KnotVector.knot_padded _ _ inside
      _ = u := (KnotVector.knot_eq_getElem _ inside).trans entry
  have first := padded 0 pos
  have last := padded (times - 1) (by omega)
  omega

/-- **Removal undoes insertion.**  Where the longer curve is valid, its copies of the
inserted knot can be removed from every index that begins as many of them, and what
remains is the curve before the insertion. -/
theorem removeKnots_of_insertKnot [Precision K] [Precision.Exact K] {index : Nat}
    (valid : c.isValid = true) (ok : c.insertKnot u times = .ok e) (valid' : e.isValid = true)
    (copies : ∀ r < times, e.knots.values[index + r]? = some u) :
    e.removeKnots index (index + times) = .ok c := by
  have sound := (regular_of_isValid valid).toSound
  have pos := Nat.pos_of_ne_zero (ne_zero_of_insertKnot ok)
  obtain ⟨start, finish, room, rfl⟩ := sound.inside_of_insertKnot ok
  obtain ⟨after, keeps, -, -⟩ := sound.insertTimes start.le finish fun _ => room
  obtain ⟨begins, within⟩ := sound.bounds_of_copies start finish room pos copies
  have undone : removeEach (c.spline.insertTimes u times) (downFrom index times) = some c.spline :=
    (sound.spans start.le finish).removeEach_insertTimes (fun _ => room) sound.sized begins within
  have inside : ∀ r < times, _ := fun r hr =>
    after.copies_inside (keeps.domain ▸ start) (keeps.domain ▸ finish) (copies r hr)
  have low := (inside 0 pos).1
  have high := (inside (times - 1) (by omega)).2
  have between : ¬(List.replicate times u).any
      (fun k => decide (k ≤ c.domain.1 ∨ c.domain.2 ≤ k)) = true := by
    simp [start, finish]
  unfold removeKnots
  rw [if_neg (by omega), if_neg (by omega), validate_eq_ok_iff.2 valid', keeps.domain]
  dsimp only
  rw [Nat.add_sub_cancel_left, Sequence.take_drop_eq_replicate copies, if_neg between,
      sound.spline_insertTimes start finish fun _ => room,
      show (List.range times).reverse.map (index + ·) = downFrom index times from rfl, undone]
  show Except.ok ((c.withSpline _).withSpline c.spline) = _
  rw [withSpline_withSpline, withSpline_spline (by have := sound.two_le_order; omega)]

/-- A rational cubic with an unclamped start, on the domain `[2, 7]`. -/
def openCubic : Curve ℚ where
  dimension := 1
  order := 4
  points := .homogeneous [[0, 1], [2, 1], [3, 2], [1, 1], [4, 2], [0, 1]]
  knots := ⟨[0, 1, 2, 4, 5, 7, 7, 7]⟩

/-- A knot is given full multiplicity, and the last two of its three copies are removed. -/
theorem removeKnots_of_insertKnot_openCubic :
    openCubic.isValid = true ∧
      ∃ e, openCubic.insertKnot 4 2 = .ok e ∧ e.isValid = true
        ∧ (∀ r < 2, e.knots.values[4 + r]? = some 4) ∧ e.removeKnots 4 (4 + 2) = .ok openCubic := by
  have valid : openCubic.isValid = true := by decide +kernel
  have ok : openCubic.insertKnot 4 2
      = .ok ⟨1, 4, .homogeneous [[0, 1], [2, 1], [11 / 4, 7 / 4], [143 / 60, 33 / 20],
          [11 / 5, 8 / 5], [1, 1], [4, 2], [0, 1]], ⟨[0, 1, 2, 4, 4, 4, 5, 7, 7, 7]⟩⟩ :=
    eq_ok_of_toOption (by decide +kernel)
  have valid' : (⟨1, 4, .homogeneous [[0, 1], [2, 1], [11 / 4, 7 / 4], [143 / 60, 33 / 20],
      [11 / 5, 8 / 5], [1, 1], [4, 2], [0, 1]], ⟨[0, 1, 2, 4, 4, 4, 5, 7, 7, 7]⟩⟩ :
        Curve ℚ).isValid = true := by decide +kernel
  have copies : ∀ r < 2, ([0, 1, 2, 4, 4, 4, 5, 7, 7, 7] : List ℚ)[4 + r]? = some 4 := by
    decide +kernel
  exact ⟨valid, _, ok, valid', copies, removeKnots_of_insertKnot valid ok valid' copies⟩

end Curve

end RationalSpline
