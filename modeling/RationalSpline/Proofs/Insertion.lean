/-
  RationalSpline.Proofs.Insertion
  ───────────────────────────────
  KNOT INSERTION KEEPS THE CURVE.

  A knot inserted at `u` splits one span and leaves the pieces what they are, so the
  new control points are values of the same polar forms at the new knots.  Up to the
  span of `u` the old control points are such values already, behind the run of `u`
  they are so with their index shifted, and in between

      f (u, s)  =  the combination of f (U j, s) and f (U (j + p), s) at u

  is the round of affine combinations that `Spline.insert` computes.

  Several copies are inserted at once by a triangle of rounds on the knots before the
  first of them.  The knots that a further round reads lie before the copies or behind
  them, so it is the round of one more insertion (`Spans.insertCopies_eq`), and what one
  insertion keeps, the triangle keeps.
-/
import RationalSpline.Proofs.Pieces

namespace RationalSpline

variable {K : Type} [Field K] [LinearOrder K] {d : Nat}

/-! ## §1. Lists put together. -/

namespace Sequence

variable {β : Type}

/-- The front of three lists that ends in the middle one. -/
theorem take_middle {a m : List β} (b : List β) {n : Nat} (inside : n ≤ m.length) :
    (a ++ m ++ b).take (a.length + n) = a ++ m.take n := by
  rw [List.append_assoc, List.take_length_add_append, List.take_append_of_le_length inside]

/-- What is behind it. -/
theorem drop_middle {a m : List β} (b : List β) {n : Nat} (inside : n ≤ m.length) :
    (a ++ m ++ b).drop (a.length + n) = m.drop n ++ b := by
  rw [List.append_assoc, List.drop_length_add_append, List.drop_append_of_le_length inside]

/-- Before the entries put into a list it reads as before. -/
theorem getD_splice_before {l : List β} {n i : Nat} (fits : n ≤ l.length)
    (m : List β) (b : β) (hi : i < n) : (l.take n ++ m ++ l.drop n).getD i b = l.getD i b := by
  rw [List.append_assoc, List.getD_append _ _ _ _ (by rw [List.length_take]; omega)]
  simp only [List.getD_eq_getElem?_getD]
  rw [List.getElem?_take_of_lt hi]

/-- Behind them it reads as before, so many places later. -/
theorem getD_splice_after {l : List β} {n i : Nat} (fits : n ≤ l.length)
    (m : List β) (b : β) (hi : n ≤ i) :
    (l.take n ++ m ++ l.drop n).getD (i + m.length) b = l.getD i b := by
  have before : (l.take n ++ m).length = n + m.length := by
    rw [List.length_append, List.length_take]
    omega
  rw [List.getD_append_right _ _ _ _ (by omega), before]
  simp only [List.getD_eq_getElem?_getD]
  rw [List.getElem?_drop]
  congr 2
  omega

/-- What holds of two lists holds of parts of the first around the second. -/
theorem forall_mem_splice {Q : β → Prop} {l m : List β} {i j : Nat} (hl : ∀ x ∈ l, Q x)
    (hm : ∀ x ∈ m, Q x) : ∀ x ∈ l.take i ++ m ++ l.drop j, Q x := by
  intro x hx
  rcases List.mem_append.1 hx with hx | hx
  · rcases List.mem_append.1 hx with hx | hx
    · exact hl x (List.mem_of_mem_take hx)
    · exact hm x hx
  · exact hl x (List.mem_of_mem_drop hx)

end Sequence

/-! ## §2. Readings of the spline with one more knot. -/

namespace Spline

section Rounds

variable {α : Type} [Scalar α]

/-- The entry of a round at an index that has a pair. -/
theorem getD_round (U : KnotVector α) (v : α) (lo hi : Nat) {points : List (Point α)} {j : Nat}
    (h : j + 1 < points.length) :
    (round U v lo hi points).getD j []
      = Point.blend ((v - U.knot (lo + j)) / (U.knot (hi + j) - U.knot (lo + j)))
          (points.getD j []) (points.getD (j + 1) []) := by
  induction points generalizing lo hi j with
  | nil => simp at h
  | cons a rest ih =>
      cases rest with
      | nil => simp at h
      | cons b rest =>
          cases j with
          | zero => simp [round]
          | succ j =>
              have tail := ih (lo + 1) (hi + 1) (j := j) (by simpa using h)
              rw [round, List.getD_cons_succ, tail, List.getD_cons_succ, List.getD_cons_succ,
                  show lo + 1 + j = lo + (j + 1) by omega,
                  show hi + 1 + j = hi + (j + 1) by omega]
              rfl

/-- A round reads its knots only. -/
theorem round_congr {U W : KnotVector α} (v : α) {lo hi lo' hi' : Nat} {points : List (Point α)}
    (same : ∀ i, i + 1 < points.length →
      U.knot (lo + i) = W.knot (lo' + i) ∧ U.knot (hi + i) = W.knot (hi' + i)) :
    round U v lo hi points = round W v lo' hi' points := by
  refine List.ext_getElem (by simp) fun i h h' => ?_
  rw [length_round] at h
  have next : i + 1 < points.length := by omega
  have pair := same i next
  have entry := getD_round U v lo hi next
  have entry' := getD_round W v lo' hi' next
  rw [List.getD_eq_getElem _ _ (by simpa using h)] at entry entry'
  rw [entry, entry', pair.1, pair.2]

end Rounds

/-- A further round of a triangle goes over what the last one left between the points
that are done. -/
theorem triangle_succ_right (U : KnotVector K) (v : K) (hi lo : Nat) {times : Nat}
    {row : List (Point K)} (h : times < row.length) :
    triangle U v hi lo (times + 1) row
      = (triangle U v hi lo times row).take (times + 1)
        ++ round U v (lo + times) hi
            (((triangle U v hi lo times row).drop times).take (row.length - times))
        ++ (triangle U v hi lo times row).drop (row.length - 1) := by
  induction times generalizing lo row with
  | zero => simp [triangle]
  | succ times ih =>
      have next : (round U v lo hi row).length = row.length - 1 := length_round U v lo hi row
      have inner := length_triangle U v hi (lo + 1)
        (show times < (round U v lo hi row).length by omega)
      have first : (row.take 1).length = 1 := by
        rw [List.length_take]
        omega
      have front := Sequence.take_middle (a := row.take 1) (row.drop (row.length - 1))
        (show times + 1 ≤ (triangle U v hi (lo + 1) times (round U v lo hi row)).length by omega)
      have middle := Sequence.drop_middle (a := row.take 1) (row.drop (row.length - 1))
        (show times ≤ (triangle U v hi (lo + 1) times (round U v lo hi row)).length by omega)
      have back := Sequence.drop_middle (a := row.take 1) (row.drop (row.length - 1))
        (show row.length - 2 ≤ (triangle U v hi (lo + 1) times (round U v lo hi row)).length by
          omega)
      rw [first, Nat.add_comm 1] at front middle
      rw [first, show 1 + (row.length - 2) = row.length - 1 by omega] at back
      -- the points between lie in the inner triangle
      have window : ((triangle U v hi (lo + 1) times (round U v lo hi row)).drop times
            ++ row.drop (row.length - 1)).take (row.length - (times + 1))
          = ((triangle U v hi (lo + 1) times (round U v lo hi row)).drop times).take
              (row.length - 1 - times) := by
        rw [List.take_append_of_le_length (by rw [List.length_drop]; omega),
            show row.length - (times + 1) = row.length - 1 - times by omega]
      rw [triangle, ih (lo + 1) (by omega), triangle, front, middle, window, back, next,
          show lo + 1 + times = lo + (times + 1) by omega,
          show row.length - 1 - 1 = row.length - 2 by omega]
      simp only [List.append_assoc]

theorem place_eq {S : Spline K} {u : K} (ordered : S.knots.Ordered)
    (some : 0 < S.knots.countUpTo u) : S.place u = S.knots.countUpTo u - 1 := by
  rw [place, ordered.floor?_eq some, Option.getD_some]

/-- The knots of the longer spline: those up to `u`, then `u`, then the rest. -/
theorem values_insert {S : Spline K} {u : K} (ordered : S.knots.Ordered)
    (some : 0 < S.knots.countUpTo u) :
    (S.insert u).knots.values
      = (S.knots.values.filter fun k => decide (k ≤ u))
          ++ u :: S.knots.values.filter fun k => decide (u < k) := by
  show S.knots.values.take (S.place u + 1) ++ u :: S.knots.values.drop (S.place u + 1) = _
  rw [place_eq ordered some, Nat.sub_add_cancel some, ordered.take_countUpTo,
      ordered.drop_countUpTo]

/-- The first control points are untouched. -/
theorem getD_insert_before {S : Spline K} {u : K} {j : Nat} (hj : j + S.degree ≤ S.place u)
    (size : S.place u - S.degree < S.points.length) :
    (S.insert u).points.getD j [] = S.points.getD j [] := by
  show (S.points.take (S.place u - S.degree + 1) ++ _ ++ _).getD j [] = _
  have inside : j < (S.points.take (S.place u - S.degree + 1)).length := by
    rw [List.length_take]
    omega
  rw [List.append_assoc, List.getD_append _ _ _ _ inside]
  simp only [List.getD_eq_getElem?_getD]
  rw [List.getElem?_take_of_lt (by omega)]

/-- The control points around the span of `u` are combinations of two old ones. -/
theorem getD_insert_between {S : Spline K} {u : K} {j : Nat} (hj : S.place u < j + S.degree)
    (hj' : j + S.knots.count u ≤ S.place u) (degree : S.degree ≤ S.place u)
    (size : S.place u - S.knots.count u < S.points.length) :
    (S.insert u).points.getD j []
      = Point.blend ((u - S.knots.knot j) / (S.knots.knot (j + S.degree) - S.knots.knot j))
          (S.points.getD (j - 1) []) (S.points.getD j []) := by
  show (S.points.take (S.place u - S.degree + 1)
    ++ round S.knots u (S.place u - S.degree + 1) (S.place u + 1)
        ((S.points.drop (S.place u - S.degree)).take (S.degree - S.knots.count u + 1))
    ++ _).getD j [] = _
  have head : (S.points.take (S.place u - S.degree + 1)).length = S.place u - S.degree + 1 := by
    rw [List.length_take]
    omega
  have pairs : ((S.points.drop (S.place u - S.degree)).take
      (S.degree - S.knots.count u + 1)).length = S.degree - S.knots.count u + 1 := by
    rw [List.length_take, List.length_drop]
    omega
  rw [List.append_assoc, List.getD_append_right _ _ _ _ (by omega), head,
      List.getD_append _ _ _ _ (by rw [length_round]; omega),
      getD_round _ _ _ _ (by omega)]
  have entry : ∀ m, m ≤ S.degree - S.knots.count u →
      ((S.points.drop (S.place u - S.degree)).take (S.degree - S.knots.count u + 1)).getD m []
        = S.points.getD (S.place u - S.degree + m) [] := by
    intro m hm
    simp only [List.getD_eq_getElem?_getD]
    rw [List.getElem?_take_of_lt (by omega), List.getElem?_drop]
  rw [entry _ (by omega), entry _ (by omega),
      show S.place u - S.degree + 1 + (j - (S.place u - S.degree + 1)) = j by omega,
      show S.place u + 1 + (j - (S.place u - S.degree + 1)) = j + S.degree by omega,
      show S.place u - S.degree + (j - (S.place u - S.degree + 1)) = j - 1 by omega,
      show S.place u - S.degree + (j - (S.place u - S.degree + 1) + 1) = j by omega]

/-- The last control points move up by one place. -/
theorem getD_insert_after {S : Spline K} {u : K} {j : Nat} (hj : S.place u < j + S.knots.count u)
    (room : S.knots.count u ≤ S.degree) (degree : S.degree ≤ S.place u)
    (size : S.place u - S.knots.count u < S.points.length) :
    (S.insert u).points.getD j [] = S.points.getD (j - 1) [] := by
  show (S.points.take (S.place u - S.degree + 1)
    ++ round S.knots u (S.place u - S.degree + 1) (S.place u + 1)
        ((S.points.drop (S.place u - S.degree)).take (S.degree - S.knots.count u + 1))
    ++ S.points.drop (S.place u - S.knots.count u)).getD j [] = _
  have before : (S.points.take (S.place u - S.degree + 1)
      ++ round S.knots u (S.place u - S.degree + 1) (S.place u + 1)
          ((S.points.drop (S.place u - S.degree)).take
            (S.degree - S.knots.count u + 1))).length = S.place u - S.knots.count u + 1 := by
    simp only [List.length_append, List.length_take, List.length_drop, length_round]
    omega
  rw [List.getD_append_right _ _ _ _ (by omega), before]
  simp only [List.getD_eq_getElem?_getD, List.getElem?_drop]
  rw [show S.place u - S.knots.count u + (j - (S.place u - S.knots.count u + 1)) = j - 1 by omega]

/-- Combinations of vectors of one size have that size. -/
theorem sized_round {U : KnotVector K} {v : K} {lo hi : Nat} {points : List (Point K)}
    (sized : ∀ x ∈ points, x.length = d) : ∀ x ∈ round U v lo hi points, x.length = d := by
  induction points generalizing lo hi with
  | nil => simp [round]
  | cons a rest ih =>
      cases rest with
      | nil => simp [round]
      | cons b rest =>
          intro x hx
          rw [round] at hx
          rcases List.mem_cons.1 hx with rfl | hx
          · have ha := sized a (by simp)
            have hb := sized b (by simp)
            simp [ha, hb]
          · exact ih (fun y hy => sized y (List.mem_cons_of_mem _ hy)) x hx

theorem sized_insert {S : Spline K} {u : K} (sized : ∀ x ∈ S.points, x.length = d) :
    ∀ x ∈ (S.insert u).points, x.length = d :=
  Sequence.forall_mem_splice sized
    (sized_round fun y hy => sized y (List.mem_of_mem_drop (List.mem_of_mem_take hy)))

/-! ## §3. One insertion keeps the forms. -/

/-- A spline with knots in order, of which `u` is a parameter before the end. -/
structure Spans (S : Spline K) (u : K) : Prop where
  /-- The knots do not decrease. -/
  ordered : S.knots.Ordered
  /-- The knot count fits. -/
  size_eq : S.knots.size = S.points.length + S.degree + 1
  /-- The domain has begun at `u`. -/
  start_le : S.knots.knot S.degree ≤ u
  /-- The domain goes on behind `u`. -/
  lt_finish : u < S.knots.knot S.points.length

namespace Spans

variable {S : Spline K} {u : K}

theorem degree_lt_countUpTo (h : S.Spans u) : S.degree < S.knots.countUpTo u := by
  have size := h.size_eq
  exact (h.ordered.knot_le_iff (by omega)).1 h.start_le

theorem countUpTo_le_length (h : S.Spans u) : S.knots.countUpTo u ≤ S.points.length := by
  have size := h.size_eq
  by_contra hlt
  have := (h.ordered.knot_le_iff (u := u) (i := S.points.length) (by omega)).2 (by omega)
  exact absurd this (not_le.2 h.lt_finish)

theorem place_eq (h : S.Spans u) : S.place u = S.knots.countUpTo u - 1 :=
  Spline.place_eq h.ordered (Nat.lt_of_le_of_lt (Nat.zero_le _) h.degree_lt_countUpTo)

/-- The knots of the run of `u`, and of the new knots behind its start. -/
theorem knot_insert (h : S.Spans u) (i : Nat) :
    (S.insert u).knots.knot i
      = if i ≤ S.place u then S.knots.knot i
        else if i = S.place u + 1 then u else S.knots.knot (i - 1) := by
  have place := h.place_eq
  have low := h.degree_lt_countUpTo
  have high := h.countUpTo_le_length
  have size := h.size_eq
  have head : (S.knots.values.take (S.place u + 1)).length = S.place u + 1 := by
    rw [List.length_take]
    show min _ S.knots.size = _
    omega
  show (S.knots.values.take (S.place u + 1)
    ++ u :: S.knots.values.drop (S.place u + 1)).getD i 0 = _
  split
  · rw [List.getD_append _ _ _ _ (by omega)]
    simp only [KnotVector.knot, List.getD_eq_getElem?_getD]
    rw [List.getElem?_take_of_lt (by omega)]
  · rw [List.getD_append_right _ _ _ _ (by omega), head]
    split
    · next same => simp [same]
    · obtain ⟨m, rfl⟩ : ∃ m, i = S.place u + 1 + (m + 1) := ⟨i - S.place u - 2, by omega⟩
      rw [show S.place u + 1 + (m + 1) - (S.place u + 1) = m + 1 by omega, List.getD_cons_succ]
      simp only [KnotVector.knot, List.getD_eq_getElem?_getD, List.getElem?_drop]
      rw [show S.place u + 1 + m = S.place u + 1 + (m + 1) - 1 by omega]

/-- The knots of the run of `u`. -/
theorem knot_eq (h : S.Spans u) {i : Nat} (hi : i ≤ S.place u)
    (run : S.place u < i + S.knots.count u) : S.knots.knot i = u := by
  have place := h.place_eq
  have low := h.degree_lt_countUpTo
  have size := KnotVector.countUpTo_le_size S.knots u
  have split := KnotVector.countUpTo_eq S.knots u
  exact (h.ordered.knot_eq_iff (by omega)).2 ⟨by omega, by omega⟩

theorem knot_lt (h : S.Spans u) {i : Nat} (hi : i + S.knots.count u ≤ S.place u) :
    S.knots.knot i < u := by
  have place := h.place_eq
  have low := h.degree_lt_countUpTo
  have size := KnotVector.countUpTo_le_size S.knots u
  have split := KnotVector.countUpTo_eq S.knots u
  exact (h.ordered.knot_lt_iff (by omega)).2 (by omega)

theorem lt_knot (h : S.Spans u) {i : Nat} (hi : S.place u < i) (size : i < S.knots.size) :
    u < S.knots.knot i := by
  have place := h.place_eq
  refine not_le.1 fun hle => ?_
  have := (h.ordered.knot_le_iff size).1 hle
  omega

theorem points_length (h : S.Spans u) (room : S.knots.count u ≤ S.degree) :
    (S.insert u).points.length = S.points.length + 1 := by
  have place := h.place_eq
  have low := h.degree_lt_countUpTo
  have high := h.countUpTo_le_length
  simp only [Spline.insert, List.length_append, List.length_take, List.length_drop, length_round]
  omega

/-- A span of the longer spline lies in the span that it comes from, which is one place lower
behind the new knot. -/
theorem exists_old_span (h : S.Spans u) {i' : Nat} {t : K} (hp : S.degree ≤ i')
    (hi' : i' < S.points.length + 1) (below : (S.insert u).knots.knot i' < t)
    (above : t < (S.insert u).knots.knot (i' + 1)) :
    ∃ i, i < S.points.length ∧ S.degree ≤ i
      ∧ (i' ≤ S.place u ∧ i = i' ∨ S.place u < i' ∧ i + 1 = i')
      ∧ S.knots.knot i < t ∧ t < S.knots.knot (i + 1) := by
  have place := h.place_eq
  have low := h.degree_lt_countUpTo
  have high := h.countUpTo_le_length
  have size := h.size_eq
  by_cases hle : i' ≤ S.place u
  · refine ⟨i', by omega, hp, Or.inl ⟨hle, rfl⟩, ?_, ?_⟩
    · rwa [h.knot_insert, if_pos hle] at below
    · rw [h.knot_insert] at above
      split_ifs at above with h₁ h₂
      · exact above
      · exact lt_trans above (h.lt_knot (by omega) (by omega))
      · omega
  · obtain ⟨i, rfl⟩ : ∃ i, i' = i + 1 := ⟨i' - 1, by omega⟩
    refine ⟨i, by omega, by omega, Or.inr ⟨by omega, rfl⟩, ?_, ?_⟩
    · rw [h.knot_insert, if_neg hle] at below
      split_ifs at below with h₁
      · exact lt_of_le_of_lt ((h.ordered.knot_le_iff (by omega)).2 (by omega)) below
      · exact below
    · rwa [h.knot_insert, if_neg (by omega), if_neg (by omega)] at above

/-- Before the new knot a stretch is the old one. -/
theorem stretch_insert_before (h : S.Spans u) {j p : Nat} (hj : j + p ≤ S.place u) :
    stretch (S.insert u).knots.knot (j + 1) p = stretch S.knots.knot (j + 1) p :=
  stretch_congr fun r hr => by rw [h.knot_insert, if_pos (by omega)]

/-- A stretch that begins in the run of the new knot is the old one, one place lower. -/
theorem stretch_insert_after (h : S.Spans u) {j p : Nat}
    (hj : S.place u < j + S.knots.count u) (pos : 0 < j) :
    stretch (S.insert u).knots.knot (j + 1) p = stretch S.knots.knot (j - 1 + 1) p := by
  refine stretch_congr fun r hr => ?_
  rw [h.knot_insert]
  split_ifs with h₁ h₂
  · rw [h.knot_eq h₁ (by omega), h.knot_eq (by omega) (by omega)]
  · exact (h.knot_eq (by omega) (by omega)).symm
  · rw [show j + 1 + r - 1 = j - 1 + 1 + r by omega]

/-- A stretch over the new knot contains it beside the knots that were there. -/
theorem stretch_insert_over (h : S.Spans u) {j n : Nat} (low : j ≤ S.place u)
    (high : S.place u ≤ j + n) :
    stretch (S.insert u).knots.knot (j + 1) (n + 1) = u ::ₘ stretch S.knots.knot (j + 1) n := by
  obtain ⟨a, ha⟩ : ∃ a, S.place u = j + a := ⟨S.place u - j, by omega⟩
  obtain ⟨b, rfl⟩ : ∃ b, n = a + b := ⟨n - a, by omega⟩
  have new : (S.insert u).knots.knot (j + 1 + a) = u := by
    rw [h.knot_insert, if_neg (by omega), if_pos (by omega)]
  rw [add_assoc, stretch_add, stretch_succ, new, stretch_add, Multiset.add_cons]
  refine congrArg₂ (fun s t => u ::ₘ (s + t)) (stretch_congr fun r hr => ?_)
    (stretch_congr fun r hr => ?_)
  · rw [h.knot_insert, if_pos (by omega)]
  · rw [h.knot_insert, if_neg (by omega), if_neg (by omega)]
    exact congrArg _ (by omega)

/-- **The longer spline follows the same forms.** -/
theorem follows_insert (h : S.Spans u) (room : S.knots.count u ≤ S.degree) {p : Nat}
    (degree : S.degree = p) {F : Pieces K d p} (follows : Follows S.knots S.points F) :
    Follows (S.insert u).knots (S.insert u).points F := by
  subst degree
  have place := h.place_eq
  have low := h.degree_lt_countUpTo
  have high := h.countUpTo_le_length
  have size := h.size_eq
  intro i' hp hi' t below above j hj hj'
  rw [h.points_length room] at hi'
  obtain ⟨i, hi, hold, hnew, before, after⟩ := h.exists_old_span hp hi' below above
  have old : ∀ m, m ≤ i → i ≤ m + S.degree →
      S.points.getD m [] = Point.ofVec (F t (stretch S.knots.knot (m + 1) S.degree)) :=
    fun m hm hm' => follows i hold hi t before after m hm hm'
  -- a point before the run of the new knot stays, one behind it moves up, one between is mixed
  by_cases first : j + S.degree ≤ S.place u
  · rw [getD_insert_before first (by omega), old j (by omega) (by omega),
        h.stretch_insert_before first]
  · by_cases last : S.place u < j + S.knots.count u
    · rw [getD_insert_after last room (by omega) (by omega), old (j - 1) (by omega) (by omega),
          h.stretch_insert_after last (by omega)]
    · obtain ⟨n, hn⟩ : ∃ n, S.degree = n + 1 := ⟨S.degree - 1, by omega⟩
      have fresh : stretch (S.insert u).knots.knot (j + 1) S.degree
          = u ::ₘ stretch S.knots.knot (j + 1) n := by
        rw [hn, h.stretch_insert_over (by omega) (by omega)]
      have card : (stretch S.knots.knot (j + 1) n).card + 1 = S.degree := by simp [hn]
      have left : stretch S.knots.knot (j - 1 + 1) S.degree
          = S.knots.knot j ::ₘ stretch S.knots.knot (j + 1) n := by
        rw [hn, show j - 1 + 1 = j by omega, stretch_succ]
      have right : stretch S.knots.knot (j + 1) S.degree
          = S.knots.knot (j + S.degree) ::ₘ stretch S.knots.knot (j + 1) n := by
        rw [hn, stretch_succ_right, show j + 1 + n = j + (n + 1) by omega]
      have apart : S.knots.knot (j + S.degree) ≠ S.knots.knot j :=
        (lt_trans (h.knot_lt (by omega)) (h.lt_knot (by omega) (by omega))).ne'
      rw [getD_insert_between (by omega) (by omega) (by omega) (by omega),
          old (j - 1) (by omega) (by omega), old j (by omega) (by omega), Point.blend_ofVec,
          fresh, left, right, ← (F t).between card apart u]

/-! ## §4. Several insertions. -/

theorem insert (h : S.Spans u) (room : S.knots.count u ≤ S.degree) : (S.insert u).Spans u := by
  have place := h.place_eq
  have low := h.degree_lt_countUpTo
  have high := h.countUpTo_le_length
  have points := h.points_length room
  refine ⟨?_, ?_, ?_, ?_⟩
  · show List.Pairwise (· ≤ ·) (S.insert u).knots.values
    rw [values_insert h.ordered (by omega)]
    refine List.pairwise_append.2 ⟨h.ordered.filter _, List.pairwise_cons.2
      ⟨fun b hb => (of_decide_eq_true (List.mem_filter.1 hb).2).le, h.ordered.filter _⟩, ?_⟩
    intro a ha b hb
    have hau : a ≤ u := of_decide_eq_true (List.mem_filter.1 ha).2
    rcases List.mem_cons.1 hb with rfl | hb
    · exact hau
    · exact le_trans hau (of_decide_eq_true (List.mem_filter.1 hb).2).le
  · rw [size_knots_insert, points, h.size_eq]
    show _ = S.points.length + 1 + S.degree + 1
    omega
  · show (S.insert u).knots.knot S.degree ≤ u
    rw [h.knot_insert, if_pos (by omega)]
    exact h.start_le
  · rw [points, h.knot_insert, if_neg (by omega), if_neg (by omega), Nat.add_sub_cancel]
    exact h.lt_finish

theorem count_insert (h : S.Spans u) :
    (S.insert u).knots.count u = S.knots.count u + 1 := by
  have low := h.degree_lt_countUpTo
  have all : S.knots.values
      = (S.knots.values.filter fun k => decide (k ≤ u))
          ++ S.knots.values.filter fun k => decide (u < k) := by
    rw [← h.ordered.take_countUpTo, ← h.ordered.drop_countUpTo, List.take_append_drop]
  have old := congrArg (List.count u) all
  rw [KnotVector.count_eq_list_count, KnotVector.count_eq_list_count,
      values_insert h.ordered (by omega), List.count_append, List.count_cons_self, old,
      List.count_append]
  omega

/-- A property that each insertion keeps is kept by all of them. -/
theorem insertTimes (h : S.Spans u) {times : Nat}
    (room : 0 < times → S.knots.count u + times ≤ S.degree) :
    (S.insertTimes u times).Spans u ∧ (S.insertTimes u times).degree = S.degree
      ∧ (S.insertTimes u times).knots.count u = S.knots.count u + times := by
  induction times with
  | zero => exact ⟨h, rfl, rfl⟩
  | succ times ih =>
      obtain ⟨spans, degree, count⟩ := ih (by omega)
      refine ⟨spans.insert (by omega), degree, ?_⟩
      show ((S.insertTimes u times).insert u).knots.count u = _
      rw [spans.count_insert, count]
      omega

theorem points_length_insertTimes (h : S.Spans u) {times : Nat}
    (room : 0 < times → S.knots.count u + times ≤ S.degree) :
    (S.insertTimes u times).points.length = S.points.length + times := by
  induction times with
  | zero => rfl
  | succ times ih =>
      obtain ⟨spans, degree, count⟩ := h.insertTimes fun _ =>
          (show S.knots.count u + times ≤ _ by omega)
      show ((S.insertTimes u times).insert u).points.length = _
      rw [spans.points_length (by omega), ih (by omega)]
      omega

/-- The knots up to `u`, the new copies of `u`, the knots behind. -/
theorem values_insertTimes (h : S.Spans u) {times : Nat}
    (room : 0 < times → S.knots.count u + times ≤ S.degree) :
    (S.insertTimes u times).knots.values
      = (S.knots.values.filter fun k => decide (k ≤ u)) ++ List.replicate times u
          ++ S.knots.values.filter fun k => decide (u < k) := by
  induction times with
  | zero =>
      rw [List.replicate_zero, List.append_nil, ← h.ordered.take_countUpTo,
          ← h.ordered.drop_countUpTo, List.take_append_drop]
      rfl
  | succ times ih =>
      obtain ⟨spans, degree, count⟩ := h.insertTimes fun _ =>
          (show S.knots.count u + times ≤ _ by omega)
      have low := spans.degree_lt_countUpTo
      have copies : ∀ l : List K, l.filter (fun k => decide (k ≤ u) && decide (u < k)) = [] :=
        fun l => List.filter_eq_nil_iff.2 fun k _ => by simp
      show ((S.insertTimes u times).insert u).knots.values = _
      rw [values_insert spans.ordered (by omega), ih (by omega)]
      simp only [List.filter_append, List.filter_filter, Bool.and_self, List.filter_replicate,
        le_refl, lt_irrefl, decide_true, decide_false, if_true]
      simp only [fun l : List K => (List.filter_congr fun k _ =>
        Bool.and_comm (decide (u < k)) (decide (k ≤ u)) :
          l.filter (fun k => decide (u < k) && decide (k ≤ u)) = _), copies]
      simp [List.replicate_succ']

/-- A further copy comes behind the others. -/
theorem place_insertTimes (h : S.Spans u) {times : Nat}
    (room : 0 < times → S.knots.count u + times ≤ S.degree) :
    (S.insertTimes u times).place u = S.place u + times := by
  obtain ⟨spans, -, -⟩ := h.insertTimes room
  have some := h.degree_lt_countUpTo
  have none : (S.knots.values.filter fun k => decide (u < k)).countP (fun k => decide (k ≤ u))
      = 0 := List.countP_eq_zero.2 fun k hk => by simpa using (List.mem_filter.1 hk).2
  have all : (S.knots.values.filter fun k => decide (k ≤ u)).countP (fun k => decide (k ≤ u))
      = S.knots.countUpTo u := by
    rw [List.countP_filter]
    simp [KnotVector.countUpTo]
  rw [spans.place_eq, h.place_eq, KnotVector.countUpTo, h.values_insertTimes room,
      List.countP_append, List.countP_append, none, all, List.countP_replicate,
      if_pos (decide_eq_true le_rfl)]
  omega

/-- The knots up to `u` and those behind its copies are the old ones. -/
theorem knot_insertCopies (h : S.Spans u) (times : Nat) {i : Nat} :
    (i ≤ S.place u → (S.insertCopies u times).knots.knot i = S.knots.knot i)
      ∧ (S.place u < i → (S.insertCopies u times).knots.knot (i + times) = S.knots.knot i) := by
  have place := h.place_eq
  have low := h.degree_lt_countUpTo
  have high := h.countUpTo_le_length
  have fits : S.place u + 1 ≤ S.knots.values.length := by
    have size : S.knots.values.length = _ := h.size_eq
    omega
  refine ⟨fun hi => Sequence.getD_splice_before fits _ 0 (by omega), fun hi => ?_⟩
  have shifted := Sequence.getD_splice_after fits (List.replicate times u) 0
    (show S.place u + 1 ≤ i by omega)
  rwa [List.length_replicate] at shifted

/-- One more copy comes behind the others. -/
theorem values_insertCopies_succ (h : S.Spans u) (times : Nat) :
    (S.insertCopies u (times + 1)).knots.values
      = (S.insertCopies u times).knots.values.take (S.place u + times + 1)
        ++ u :: (S.insertCopies u times).knots.values.drop (S.place u + times + 1) := by
  have place := h.place_eq
  have low := h.degree_lt_countUpTo
  have high := h.countUpTo_le_length
  have size : S.knots.values.length = S.points.length + S.degree + 1 := h.size_eq
  have head : (S.knots.values.take (S.place u + 1)).length = S.place u + 1 := by
    rw [List.length_take]
    omega
  have copies : (List.replicate times u).length ≤ times := List.length_replicate.le
  have taken := Sequence.take_middle (a := S.knots.values.take (S.place u + 1))
    (S.knots.values.drop (S.place u + 1)) (List.length_replicate (n := times) (a := u)).ge
  have dropped := Sequence.drop_middle (a := S.knots.values.take (S.place u + 1))
    (S.knots.values.drop (S.place u + 1)) (List.length_replicate (n := times) (a := u)).ge
  rw [head, Nat.add_right_comm] at taken dropped
  rw [List.take_of_length_le copies] at taken
  rw [List.drop_of_length_le copies, List.nil_append] at dropped
  show S.knots.values.take _ ++ List.replicate (times + 1) u ++ S.knots.values.drop _
    = (S.knots.values.take _ ++ List.replicate times u ++ S.knots.values.drop _).take _
      ++ u :: (S.knots.values.take _ ++ List.replicate times u ++ S.knots.values.drop _).drop _
  rw [taken, dropped, List.replicate_succ']
  simp only [List.append_assoc, List.singleton_append]

/-- A round on the knots of `S` behind the copies is one on the knots with the copies. -/
theorem round_insertCopies (h : S.Spans u) {times : Nat}
    (room : S.knots.count u + times ≤ S.degree) {row : List (Point K)}
    (short : row.length ≤ S.degree - S.knots.count u + 1 - times) :
    round S.knots u (S.place u - S.degree + 1 + times) (S.place u + 1) row
      = round (S.insertCopies u times).knots u (S.place u + times - S.degree + 1)
          (S.place u + times + 1) row := by
  have place := h.place_eq
  have low := h.degree_lt_countUpTo
  refine round_congr u fun i hi => ⟨?_, ?_⟩
  · rw [(h.knot_insertCopies times).1 (by omega)]
    exact congrArg _ (by omega)
  · rw [show S.place u + times + 1 + i = S.place u + 1 + i + times by omega,
        (h.knot_insertCopies times).2 (by omega)]

/-- One more round of the triangle is a round on the knots with the copies before it. -/
theorem points_insertCopies_succ (h : S.Spans u) {times : Nat}
    (room : S.knots.count u + (times + 1) ≤ S.degree) :
    (S.insertCopies u (times + 1)).points
      = (S.insertCopies u times).points.take (S.place u + times - S.degree + 1)
        ++ round (S.insertCopies u times).knots u (S.place u + times - S.degree + 1)
            (S.place u + times + 1)
            (((S.insertCopies u times).points.drop (S.place u + times - S.degree)).take
              (S.degree - (S.knots.count u + times) + 1))
        ++ (S.insertCopies u times).points.drop (S.place u - S.knots.count u) := by
  have place := h.place_eq
  have low := h.degree_lt_countUpTo
  have high := h.countUpTo_le_length
  have front : (S.points.take (S.place u - S.degree)).length = S.place u - S.degree := by
    rw [List.length_take]
    omega
  have window : ((S.points.drop (S.place u - S.degree)).take
      (S.degree - S.knots.count u + 1)).length = S.degree - S.knots.count u + 1 := by
    rw [List.length_take, List.length_drop]
    omega
  have short : times < ((S.points.drop (S.place u - S.degree)).take
      (S.degree - S.knots.count u + 1)).length := by omega
  have next := triangle_succ_right S.knots u (S.place u + 1) (S.place u - S.degree + 1) short
  have length := length_triangle S.knots u (S.place u + 1) (S.place u - S.degree + 1) short
  rw [window] at next length
  have whole : (S.insertCopies u times).points = S.points.take (S.place u - S.degree)
      ++ triangle S.knots u (S.place u + 1) (S.place u - S.degree + 1) times
          ((S.points.drop (S.place u - S.degree)).take (S.degree - S.knots.count u + 1))
      ++ S.points.drop (S.place u - S.knots.count u + 1) := rfl
  -- the combined points lie in the triangle, as far as they are not done
  rw [whole]
  show S.points.take _ ++ triangle S.knots u _ _ (times + 1) _ ++ S.points.drop _ = _
  rw [next]
  generalize triangle S.knots u (S.place u + 1) (S.place u - S.degree + 1) times
    ((S.points.drop (S.place u - S.degree)).take (S.degree - S.knots.count u + 1)) = T at *
  have taken := Sequence.take_middle (a := S.points.take (S.place u - S.degree))
    (S.points.drop (S.place u - S.knots.count u + 1)) (show times + 1 ≤ T.length by omega)
  have dropped := Sequence.drop_middle (a := S.points.take (S.place u - S.degree))
    (S.points.drop (S.place u - S.knots.count u + 1)) (show times ≤ T.length by omega)
  have last := Sequence.drop_middle (a := S.points.take (S.place u - S.degree))
    (S.points.drop (S.place u - S.knots.count u + 1))
    (show S.degree - S.knots.count u ≤ T.length by omega)
  rw [front, show S.place u - S.degree + (times + 1) = S.place u + times - S.degree + 1 by omega]
    at taken
  rw [front, show S.place u - S.degree + times = S.place u + times - S.degree by omega] at dropped
  rw [front, show S.place u - S.degree + (S.degree - S.knots.count u)
    = S.place u - S.knots.count u by omega] at last
  rw [taken, dropped, last,
      List.take_append_of_le_length (by rw [List.length_drop]; omega),
      show S.degree - (S.knots.count u + times) + 1
          = S.degree - S.knots.count u + 1 - times by omega,
      h.round_insertCopies (by omega) (List.length_take_le _ _), Nat.add_sub_cancel]
  simp only [List.append_assoc]

/-- **Several copies at once are as many insertions.** -/
theorem insertCopies_eq (h : S.Spans u) {times : Nat} (room : S.knots.count u + times ≤ S.degree) :
    S.insertCopies u times = S.insertTimes u times := by
  induction times with
  | zero =>
      have place := h.place_eq
      have low := h.degree_lt_countUpTo
      show Spline.mk _ ⟨_ ++ [] ++ _⟩ (_ ++ (S.points.drop _).take _ ++ S.points.drop _) = S
      rw [List.append_nil, List.take_append_drop, List.append_assoc,
          show S.place u - S.knots.count u + 1
            = S.place u - S.degree + (S.degree - S.knots.count u + 1) by omega,
          ← List.drop_drop, List.take_append_drop, List.take_append_drop]
  | succ times ih =>
      have before := ih (by omega)
      have room' : 0 < times → S.knots.count u + times ≤ S.degree := fun _ => by omega
      obtain ⟨-, -, count⟩ := h.insertTimes room'
      have place := h.place_insertTimes room'
      show _ = (S.insertTimes u times).insert u
      rw [← before] at count place ⊢
      have values := h.values_insertCopies_succ times
      have points := h.points_insertCopies_succ room
      show Spline.mk _ ⟨(S.insertCopies u (times + 1)).knots.values⟩
        (S.insertCopies u (times + 1)).points = Spline.mk _ ⟨_ ++ u :: _⟩ _
      rw [values, points, place, count, Nat.add_sub_add_right]
      rfl

/-- Copies for which the degree has room touch only what exists. -/
theorem insertTimes?_eq (h : S.Spans u) {times : Nat}
    (room : 0 < times → S.knots.count u + times ≤ S.degree) :
    S.insertTimes? u times = some (S.insertTimes u times) := by
  have place := h.place_eq
  have lower := h.degree_lt_countUpTo
  have upper := h.countUpTo_le_length
  unfold Spline.insertTimes?
  split
  · next none =>
      rw [none]
      rfl
  · rw [if_pos, h.insertCopies_eq (by omega)]
    simp only [Spline.admits, decide_eq_true_eq]
    exact ⟨by omega, by omega, by omega, by omega⟩

theorem follows_insertTimes (h : S.Spans u) {times : Nat}
    (room : 0 < times → S.knots.count u + times ≤ S.degree) {p : Nat} (degree : S.degree = p)
    {F : Pieces K d p} (follows : Follows S.knots S.points F) :
    Follows (S.insertTimes u times).knots (S.insertTimes u times).points F := by
  induction times with
  | zero => exact follows
  | succ times ih =>
      obtain ⟨spans, same, count⟩ := h.insertTimes fun _ =>
          (show S.knots.count u + times ≤ _ by omega)
      exact spans.follows_insert (by omega) (same.trans degree) (ih (by omega))

/-- The ends of the domain stay where they are. -/
theorem knot_ends_insertTimes (h : S.Spans u) {times : Nat}
    (room : 0 < times → S.knots.count u + times ≤ S.degree) :
    (S.insertTimes u times).knots.knot S.degree = S.knots.knot S.degree
      ∧ (S.insertTimes u times).knots.knot (S.points.length + times)
        = S.knots.knot S.points.length := by
  induction times with
  | zero => exact ⟨rfl, rfl⟩
  | succ times ih =>
      obtain ⟨spans, degree, count⟩ := h.insertTimes fun _ =>
          (show S.knots.count u + times ≤ _ by omega)
      obtain ⟨start, finish⟩ := ih (by omega)
      have place := spans.place_eq
      have low := spans.degree_lt_countUpTo
      have high := spans.countUpTo_le_length
      rw [h.points_length_insertTimes (by omega)] at high
      constructor
      · show ((S.insertTimes u times).insert u).knots.knot S.degree = _
        rw [spans.knot_insert, if_pos (by omega), start]
      · show ((S.insertTimes u times).insert u).knots.knot (S.points.length + (times + 1)) = _
        rw [spans.knot_insert, if_neg (by omega), if_neg (by omega),
            show S.points.length + (times + 1) - 1 = S.points.length + times by omega, finish]

end Spans

theorem sized_insertTimes {S : Spline K} {u : K} {times : Nat}
    (sized : ∀ x ∈ S.points, x.length = d) :
    ∀ x ∈ (S.insertTimes u times).points, x.length = d := by
  induction times with
  | zero => exact sized
  | succ times ih => exact sized_insert ih

/-! The shares are those of a knot between others. -/

section Hull

variable [IsStrictOrderedRing K]

theorem inHull_round {U : KnotVector K} {v : K} {lo hi : Nat} {points : List (Point K)}
    (between : ∀ i, i + 1 < points.length → U.knot (lo + i) ≤ v ∧ v ≤ U.knot (hi + i)) :
    Curve.InHull points (round U v lo hi points) := by
  intro Q blend
  induction points generalizing lo hi with
  | nil => simp [round]
  | cons a rest ih =>
      cases rest with
      | nil => simp [round]
      | cons b rest =>
          intro all x hx
          rw [round] at hx
          rcases List.mem_cons.1 hx with rfl | hx
          · obtain ⟨low, high⟩ := between 0 (by simp)
            rw [Nat.add_zero] at low high
            exact blend _ _ _ (div_nonneg (sub_nonneg.2 low) (sub_nonneg.2 (le_trans low high)))
              (div_le_one_of_le₀ (sub_le_sub_right high _) (sub_nonneg.2 (le_trans low high)))
              (all a List.mem_cons_self) (all b (by simp))
          · refine ih (fun i inside => ?_) (fun y hy => all y (List.mem_cons_of_mem _ hy)) x hx
            have next := between (i + 1) (by simpa using inside)
            rwa [Nat.add_comm i, ← Nat.add_assoc, ← Nat.add_assoc] at next

theorem Spans.inHull_insert {S : Spline K} {u : K} (h : S.Spans u) :
    Curve.InHull S.points (S.insert u).points := by
  have place := h.place_eq
  have start := h.degree_lt_countUpTo
  have finish := h.countUpTo_le_length
  have size := h.size_eq
  have middle : Curve.InHull S.points (round S.knots u (S.place u - S.degree + 1) (S.place u + 1)
      ((S.points.drop (S.place u - S.degree)).take (S.degree - S.knots.count u + 1))) := by
    refine (Curve.inHull_of_subset fun x hx => List.mem_of_mem_drop (List.mem_of_mem_take hx)).trans
      (inHull_round fun i hi => ?_)
    rw [List.length_take] at hi
    exact ⟨(h.ordered.knot_le_iff (by omega)).2 (by omega), (h.lt_knot (by omega) (by omega)).le⟩
  intro Q blend all
  exact Sequence.forall_mem_splice all (middle Q blend all)

theorem Spans.inHull_insertTimes {S : Spline K} {u : K} (h : S.Spans u) {times : Nat}
    (room : 0 < times → S.knots.count u + times ≤ S.degree) :
    Curve.InHull S.points (S.insertTimes u times).points := by
  induction times with
  | zero => exact Curve.inHull_of_subset (List.Subset.refl _)
  | succ times ih =>
      obtain ⟨spans, -, -⟩ := h.insertTimes fun _ => (show S.knots.count u + times ≤ _ by omega)
      exact (ih fun _ => by omega).trans spans.inHull_insert

end Hull

end Spline

/-! ## §5. Insertion into a curve. -/

namespace Curve

/-- Padding anew changes no knot that acts on anything. -/
theorem follows_withSpline {c : Curve K} {S : Spline K} {p : Nat} (hp : 0 < p)
    (degree : S.degree = p) (size : S.knots.size = S.points.length + S.degree + 1)
    {F : Pieces K d p} (follows : Follows S.knots S.points F) :
    Follows (c.withSpline S).spline.knots (c.withSpline S).points.vectors F := by
  rw [vectors_withSpline]
  show Follows (S.knots.unpadded.padded _) S.points F
  refine follows.congr_ends hp fun i hi hi' => ?_
  obtain ⟨i, rfl⟩ : ∃ i', i = i' + 1 := ⟨i - 1, by omega⟩
  rw [KnotVector.knot_padded _ _ (by rw [KnotVector.size_unpadded]; omega),
      KnotVector.knot_unpadded _ (by omega)]

/-- What the degree has room for lies inside the domain, since clamped ends are full. -/
theorem Sound.inside_of_room {c : Curve K} (h : c.Sound) {u : K} {times : Nat} (pos : 0 < times)
    (inside : c.domain.1 ≤ u ∧ u ≤ c.domain.2) (room : c.knots.count u + times ≤ c.degree)
    (start : u = c.domain.1 → c.isClamped .start = true)
    (finish : u = c.domain.2 → c.isClamped .finish = true) : c.domain.1 < u ∧ u < c.domain.2 := by
  obtain ⟨two, points, size, degree⟩ := h.counts
  have split := KnotVector.countUpTo_eq c.knots u
  refine ⟨lt_of_le_of_ne inside.1 ?_, lt_of_le_of_ne inside.2 ?_⟩
  · rintro rfl
    have low := h.countBelow_start (start rfl)
    have high := (h.ordered.knot_le_iff (i := c.order - 2) (u := c.domain.1) (by omega)).1
      (le_refl _)
    omega
  · rintro rfl
    have clamped := finish rfl
    simp only [isClamped, KnotVector.isClamped, beq_iff_eq] at clamped
    -- all knots from the end of the domain on are equal
    have high := (h.ordered.knot_le_iff (i := c.knots.size - 1) (u := c.domain.2) (by omega)).1
      clamped.le
    have low : ¬c.knots.size + 1 - c.order < c.knots.countBelow c.domain.2 := fun e =>
      lt_irrefl _ ((h.ordered.knot_lt_iff (by omega)).2 e)
    omega

variable [IsStrictOrderedRing K]

theorem Sound.spans {c : Curve K} (h : c.Sound) {u : K} (start : c.domain.1 ≤ u)
    (finish : u < c.domain.2) : c.spline.Spans u where
  ordered := h.ordered_padded
  size_eq := size_padded_knots h
  start_le := by
    rw [h.domain_start] at start
    exact start
  lt_finish := by
    rw [h.domain_finish] at finish
    exact finish

/-- The knots of a padded vector up to a value before its last knot. -/
theorem Sound.filter_padded {c : Curve K} (h : c.Sound) {u : K} (start : c.domain.1 ≤ u)
    (finish : u < c.domain.2) :
    (c.spline.knots.values.filter fun k => decide (k ≤ u))
        = c.knots.superfluous c.order .start :: c.knots.values.filter (fun k => decide (k ≤ u))
      ∧ (c.spline.knots.values.filter fun k => decide (u < k))
        = c.knots.values.filter (fun k => decide (u < k))
          ++ [c.knots.superfluous c.order .finish] := by
  have first : c.knots.superfluous c.order .start ≤ u := h.superfluous_le.trans start
  have last : u < c.knots.superfluous c.order .finish := finish.trans_le h.le_superfluous
  rw [c.values_spline]
  constructor
  · simp [List.filter_append, first, not_le.2 last]
  · simp [List.filter_append, not_lt.2 first, last]

/-- Padding adds no copy of a knot between the ends of the domain. -/
theorem Sound.count_padded {c : Curve K} (h : c.Sound) {u : K}
    (start : c.knots.superfluous c.order .start < u) (finish : u < c.domain.2) :
    c.spline.knots.count u = c.knots.count u := by
  have last : u < c.knots.superfluous c.order .finish := finish.trans_le h.le_superfluous
  rw [KnotVector.count_eq_list_count, KnotVector.count_eq_list_count, c.values_spline,
      List.count_append, List.count_cons_of_ne (ne_of_lt start),
      List.count_eq_zero_of_not_mem (l := [_]) (by simpa using ne_of_lt last), Nat.add_zero]

theorem Sound.count_padded_inside {c : Curve K} (h : c.Sound) {u : K} (start : c.domain.1 < u)
    (finish : u < c.domain.2) : c.spline.knots.count u = c.knots.count u :=
  h.count_padded (h.superfluous_le.trans_lt start) finish

/-- Copies of a knot inside the domain for which the degree has room can be inserted. -/
theorem Sound.insertTimes?_eq {c : Curve K} (h : c.Sound) {u : K} {times : Nat}
    (inside : c.domain.1 < u ∧ u < c.domain.2) (room : c.knots.count u + times ≤ c.degree) :
    c.spline.insertTimes? u times = some (c.spline.insertTimes u times) :=
  (h.spans inside.1.le inside.2).insertTimes?_eq fun _ => by
    rw [h.count_padded_inside inside.1 inside.2]
    exact room

/-- **Which insertions are accepted.** -/
theorem Sound.insertKnot_eq_ok_iff {c e : Curve K} (h : c.Sound) {u : K} {times : Nat} :
    c.insertKnot u times = .ok e ↔
      0 < times ∧ (c.domain.1 < u ∧ u < c.domain.2) ∧ c.knots.count u + times ≤ c.degree
        ∧ c.knots.count u + times < countLimit
        ∧ e = c.withSpline (c.spline.insertTimes u times) := by
  unfold insertKnot
  dsimp only
  constructor
  · intro ok
    split_ifs at ok with none outside limit full open_
    simp only [Bool.or_eq_true, Bool.and_eq_true, Bool.not_eq_true', beq_iff_eq, not_or, not_and,
      Bool.not_eq_false] at open_
    have inside := h.inside_of_room (Nat.pos_of_ne_zero none) outside (not_lt.1 full)
        open_.1 open_.2
    rw [h.insertTimes?_eq inside (not_lt.1 full)] at ok
    exact ⟨Nat.pos_of_ne_zero none, inside, not_lt.1 full, not_le.1 limit, (Except.ok.inj ok).symm⟩
  · rintro ⟨pos, inside, room, limit, rfl⟩
    rw [if_neg pos.ne', if_neg (not_not.2 ⟨inside.1.le, inside.2.le⟩), if_neg (not_le.2 limit),
        if_neg (not_lt.2 room), if_neg (by simp [inside.1.ne', inside.2.ne]),
        h.insertTimes?_eq inside room]

/-- **Which insertions are undefined**: those after which the number of copies is no count. -/
theorem Sound.insertKnot_eq_undefined_iff {c : Curve K} (h : c.Sound) {u : K} {times : Nat} :
    c.insertKnot u times = .error .undefined ↔
      0 < times ∧ (c.domain.1 ≤ u ∧ u ≤ c.domain.2) ∧ countLimit ≤ c.knots.count u + times := by
  unfold insertKnot
  dsimp only
  constructor
  · intro undefined
    split_ifs at undefined with none outside limit full open_
    · cases undefined
    · exact ⟨Nat.pos_of_ne_zero none, outside, limit⟩
    · cases undefined
    · cases undefined
    · simp only [Bool.or_eq_true, Bool.and_eq_true, Bool.not_eq_true', beq_iff_eq, not_or, not_and,
        Bool.not_eq_false] at open_
      have inside := h.inside_of_room (Nat.pos_of_ne_zero none) outside (not_lt.1 full) open_.1
        open_.2
      rw [h.insertTimes?_eq inside (not_lt.1 full)] at undefined
      cases undefined
    · cases undefined
  · rintro ⟨pos, inside, limit⟩
    rw [if_neg pos.ne', if_neg (not_not.2 inside), if_pos limit]

/-- A knot that can be inserted lies inside the domain. -/
theorem Sound.inside_of_insertKnot {c e : Curve K} (h : c.Sound) {u : K} {times : Nat}
    (ok : c.insertKnot u times = .ok e) :
    c.domain.1 < u ∧ u < c.domain.2 ∧ c.spline.knots.count u + times ≤ c.degree
      ∧ e = c.withSpline (c.spline.insertTimes u times) := by
  obtain ⟨-, ⟨start, finish⟩, room, -, result⟩ := h.insertKnot_eq_ok_iff.1 ok
  exact ⟨start, finish, (h.count_padded_inside start finish).symm ▸ room, result⟩

/-- **Insertion of a knot before the end of the domain.** -/
theorem Sound.insertTimes {c : Curve K} (h : c.Sound) {u : K} {times : Nat}
    (start : c.domain.1 ≤ u) (finish : u < c.domain.2)
    (room : 0 < times → c.spline.knots.count u + times ≤ c.degree) :
    (c.withSpline (c.spline.insertTimes u times)).Sound
      ∧ Keeps c (c.withSpline (c.spline.insertTimes u times))
      ∧ (c.withSpline (c.spline.insertTimes u times)).pointCount = c.pointCount + times
      ∧ (c.withSpline (c.spline.insertTimes u times)).knots.values
        = (c.knots.values.filter fun k => decide (k ≤ u)) ++ List.replicate times u
            ++ c.knots.values.filter fun k => decide (u < k) := by
  have spans := h.spans start finish
  obtain ⟨after, degree, -⟩ := spans.insertTimes room
  have points := spans.points_length_insertTimes room
  obtain ⟨two, enough, -, -⟩ := h.counts
  have length : c.spline.points.length = c.pointCount := rfl
  have splineDegree : c.spline.degree = c.order - 1 := rfl
  have positive : 0 < (c.spline.insertTimes u times).degree := by omega
  have within : (c.spline.insertTimes u times).degree
      < (c.spline.insertTimes u times).points.length := by omega
  have order : (c.withSpline (c.spline.insertTimes u times)).order = c.order := by
    show (c.spline.insertTimes u times).degree + 1 = c.order
    omega
  have values : (c.withSpline (c.spline.insertTimes u times)).knots.values
      = (c.knots.values.filter fun k => decide (k ≤ u)) ++ List.replicate times u
          ++ c.knots.values.filter fun k => decide (u < k) := by
    show (c.spline.insertTimes u times).knots.values.tail.dropLast = _
    rw [spans.values_insertTimes room, (h.filter_padded start finish).1,
        (h.filter_padded start finish).2, List.cons_append, List.cons_append, List.tail_cons,
        ← List.append_assoc, List.dropLast_concat]
  -- the ends of the domain are knots that no copy moves
  have domain : (c.withSpline (c.spline.insertTimes u times)).domain = c.domain := by
    obtain ⟨first, last⟩ := spans.knot_ends_insertTimes room
    rw [domain_withSpline positive within after.size_eq, degree, first, points, last]
    exact (Prod.ext h.domain_start h.domain_finish).symm
  have hull : InHull c.points.vectors
      (c.withSpline (c.spline.insertTimes u times)).points.vectors := by
    rw [vectors_withSpline]
    exact spans.inHull_insertTimes room
  refine ⟨sound_withSpline positive within after.size_eq after.ordered
      (Spline.sized_insertTimes h.sized), ⟨rfl, order, isRational_withSpline c _, domain, ?_, hull⟩,
    by rw [pointCount_withSpline, points, length], values⟩
  intro d p F hp follows
  have same : (c.spline.insertTimes u times).degree = p := degree.trans hp
  exact follows_withSpline (same ▸ positive) same after.size_eq
    (spans.follows_insertTimes room hp follows)

/-- **Knot insertion preserves the curve.**  Order, rational flag and domain stay, the
new knots stand where the order of the knots puts them, and the value at every
parameter of the domain is the same. -/
theorem insertKnot_preserves_curve [Precision K] [Precision.Exact K] {c e : Curve K} {v : K}
    {multiplicity : Nat} (valid : c.isValid = true)
    (ok : c.insertKnot v multiplicity = .ok e) :
    e.dimension = c.dimension ∧ e.order = c.order ∧ e.isRational = c.isRational
      ∧ e.domain = c.domain
      ∧ e.knots.values = (c.knots.values.filter fun k => decide (k ≤ v))
          ++ List.replicate multiplicity v ++ (c.knots.values.filter fun k => decide (v < k))
      ∧ e.pointCount = c.pointCount + multiplicity
      ∧ ∀ t, c.domain.1 ≤ t → t ≤ c.domain.2 →
          e.definedVector t = c.definedVector t ∧ e.definedAt t = c.definedAt t := by
  have regular := regular_of_isValid valid
  have sound := regular.toSound
  obtain ⟨start, finish, room, rfl⟩ := sound.inside_of_insertKnot ok
  obtain ⟨after, keeps, count, values⟩ := sound.insertTimes start.le finish fun _ => room
  have domain := regular.domain_lt
  exact ⟨keeps.dimension, keeps.order, keeps.rational, keeps.domain, values, count,
    fun t h₀ h₁ => ⟨keeps.definedVector_eq sound after domain h₀ h₁,
      keeps.definedAt_eq sound after domain h₀ h₁⟩⟩

/-- A rational curve with an unclamped start, on the domain `[1, 3]`. -/
def openStart : Curve ℚ where
  dimension := 1
  order := 3
  points := .homogeneous [[0, 1], [2, 1], [3, 2], [1, 1]]
  knots := ⟨[0, 1, 2, 3, 3]⟩

/-- A knot between two others of a rational curve with an unclamped start. -/
theorem insertKnot_preserves_openStart :
    openStart.isValid = true ∧
      ∃ e, openStart.insertKnot (3 / 2) 1 = .ok e ∧ e.domain = (1, 3) ∧ e.pointCount = 5
        ∧ e.definedAt 2 = openStart.definedAt 2 := by
  have valid : openStart.isValid = true := by decide +kernel
  have ok : openStart.insertKnot (3 / 2) 1
      = .ok ⟨1, 3, .homogeneous [[0, 1], [3 / 2, 1], [9 / 4, 5 / 4], [3, 2], [1, 1]],
          ⟨[0, 1, 3 / 2, 2, 3, 3]⟩⟩ := eq_ok_of_toOption (by decide +kernel)
  obtain ⟨-, -, -, domain, -, count, value⟩ := insertKnot_preserves_curve valid ok
  exact ⟨valid, _, ok, domain, count, (value 2 (by decide +kernel) (by decide +kernel)).2⟩

end Curve

end RationalSpline
