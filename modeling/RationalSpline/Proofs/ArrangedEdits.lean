/-
  RationalSpline.Proofs.ArrangedEdits
  ───────────────────────────────────
  INSERTION AND CLAMPING KEEP CURVES ARRANGED.

  Copies of a knot go behind the last knot that is not above it, so the knots stay in
  order, and the end spans stay as they are or become shorter.  Clamping inserts copies of
  the start and drops as many knots before it.  That a curve stays arranged needs no more of
  the numbers than how they compare, and of negation that it turns the order round.

  The knots that splitting inserts lie inside the domain, and the degree has room for
  their copies.  So none of them is refused; one of them may only have no meaning.
-/
import RationalSpline.Proofs.Padding
import RationalSpline.Proofs.Splitting

namespace RationalSpline

namespace Sequence

variable {β : Type} {test : β → Bool} {l : List β}

/-- An entry behind a list that passes the test is the last to pass it. -/
theorem lastIndex?_concat_of_passes {x : β} (passes : test x = true) :
    lastIndex? test (l ++ [x]) = some l.length := by
  induction l with
  | nil => simp [lastIndex?, passes]
  | cons y l ih => rw [List.cons_append, lastIndex?, ih, List.length_cons]

/-- Behind the last index no entry passes the test. -/
theorem fails_of_lastIndex?_lt {k i : Nat} {x : β} (found : lastIndex? test l = some k)
    (lt : k < i) (there : l[i]? = some x) : test x = false := by
  by_contra passes
  obtain ⟨r, found', le⟩ := exists_lastIndex? there (by simpa using passes)
  cases found.symm.trans found'
  omega

end Sequence

variable {α : Type} [Scalar α]

namespace KnotVector

variable {U : KnotVector α} {u : α} {k n : Nat}

/-! ## §1. Copies of a knot. -/

theorem isNonDecreasing_of_knot_le_succ
    (h : ∀ i, i + 1 < U.size → U.knot i ≤ U.knot (i + 1)) : U.isNonDecreasing = true := by
  refine List.all_eq_true.2 fun pair member => decide_eq_true ?_
  obtain ⟨i, hi, rfl⟩ := List.mem_iff_getElem.1 member
  have inside : i + 1 < U.values.length := by
    rw [Sequence.length_neighbours] at hi
    omega
  have le := h i inside
  simpa [Sequence.neighbours, knot, inside, Nat.lt_of_succ_lt inside] using le

theorem pairwise_of_isNonDecreasing [Scalar.Compares α] (h : U.isNonDecreasing = true)
    (two : 2 ≤ U.size) : U.values.Pairwise (· ≤ ·) := by
  refine List.pairwise_iff_getElem.2 fun i j hi hj lt => ?_
  rw [← knot_eq_getElem U hi, ← knot_eq_getElem U hj]
  exact knot_le_of_isNonDecreasing h two lt.le hj

/-- Knots that equal a number from one index up to another are all of its copies. -/
theorem count_of_window {a b : Nat} (le : a ≤ b) (hb : b ≤ U.size)
    (low : ∀ i < a, (U.knot i == u) = false)
    (mid : ∀ i, a ≤ i → i < b → (U.knot i == u) = true)
    (high : ∀ i, b ≤ i → i < U.size → (U.knot i == u) = false) : U.count u = b - a := by
  have whole : U.values = U.values.take a ++ (U.values.take b).drop a ++ U.values.drop b := by
    conv_lhs => rw [← List.take_append_drop b U.values,
      ← List.take_append_drop a (U.values.take b), List.take_take, Nat.min_eq_left le]
  have first : (U.values.take a).countP (· == u) = 0 := List.countP_eq_zero.2 fun x hx => by
    obtain ⟨i, hi, rfl⟩ := List.mem_take_iff_getElem.1 hx
    have differ := low i (by omega)
    rw [knot_eq_getElem U (by omega)] at differ
    exact Bool.eq_false_iff.1 differ
  have last : (U.values.drop b).countP (· == u) = 0 := List.countP_eq_zero.2 fun x hx => by
    obtain ⟨i, hi, rfl⟩ := List.mem_drop_iff_getElem.1 hx
    have inside : b + i < U.size := Nat.add_comm i b ▸ hi
    have differ := high _ (Nat.le_add_right b i) inside
    rw [knot_eq_getElem U inside] at differ
    exact Bool.eq_false_iff.1 differ
  have between := List.countP_le_length (p := (· == u)) (l := (U.values.take b).drop a)
  have atLeast := le_count_of_beq (i := a) (n := b - a) (u := u) (U := U) (by omega)
    fun r hr => mid _ (by omega) (by omega)
  rw [List.length_drop, List.length_take_of_le hb] at between
  rw [count, whole, List.countP_append, List.countP_append, first, last] at atLeast ⊢
  omega

/-- The first knot that equals a number, behind one that does not. -/
theorem findIdx?_cons_concat {first last : α} {a : Nat} (other : (first == u) = false)
    (inside : a < U.size) (low : ∀ i < a, (U.knot i == u) = false)
    (there : (U.knot a == u) = true) :
    (first :: U.values ++ [last]).findIdx? (· == u) = some (a + 1) := by
  have found : U.values.findIdx? (· == u) = some a := by
    refine List.findIdx?_eq_some_iff_getElem.2 ⟨inside, ?_, fun i hi => ?_⟩
    · rwa [knot_eq_getElem U inside] at there
    · have differ := low i hi
      rw [knot_eq_getElem U (hi.trans inside)] at differ
      exact Bool.eq_false_iff.1 differ
  rw [List.cons_append, List.findIdx?_cons, other, List.findIdx?_append, found]
  rfl

/-- Copies of a number behind the first `k` knots. -/
def withCopies (U : KnotVector α) (k n : Nat) (u : α) : KnotVector α :=
  ⟨U.values.take k ++ List.replicate n u ++ U.values.drop k⟩

omit [Scalar α] in
theorem size_withCopies (U : KnotVector α) (k n : Nat) (u : α) :
    (U.withCopies k n u).size = U.size + n := by
  simp only [withCopies, size, List.length_append, List.length_take, List.length_replicate,
    List.length_drop]
  omega

/-- The knots behind the copies have moved up by so many places. -/
theorem knot_withCopies (hk : k ≤ U.size) (i : Nat) : (U.withCopies k n u).knot i
    = if i < k then U.knot i else if i < k + n then u else U.knot (i - n) := by
  have length : (U.values.take k).length = k := List.length_take_of_le hk
  simp only [withCopies, knot, List.getD_eq_getElem?_getD, List.append_assoc]
  split_ifs with low mid
  · rw [List.getElem?_append_left (length.symm ▸ low), List.getElem?_take_of_lt low]
  · have copy : i - k < n := by omega
    rw [List.getElem?_append_right (by omega), length,
        List.getElem?_append_left (by simpa using copy), List.getElem?_replicate, if_pos copy]
    rfl
  · rw [List.getElem?_append_right (by omega), length,
        List.getElem?_append_right (by simp; omega), List.length_replicate, List.getElem?_drop]
    exact congrArg (fun j => (U.values[j]?).getD 0) (by omega)

omit [Scalar α] in
/-- They are the knots and the copies. -/
theorem perm_withCopies (U : KnotVector α) (k n : Nat) (u : α) :
    (U.withCopies k n u).values.Perm (U.values ++ List.replicate n u) := by
  conv_rhs => rw [← List.take_append_drop k U.values]
  rw [withCopies, List.append_assoc, List.append_assoc]
  exact List.perm_append_comm.append_left _

/-- Between knots that are not above a number and knots that are not below it, copies of it
keep the order. -/
theorem isNonDecreasing_withCopies [Scalar.Compares α] (h : U.isNonDecreasing = true)
    (hk : k < U.size) (low : ∀ i < k, U.knot i ≤ u)
    (high : ∀ i, k ≤ i → i < U.size → u ≤ U.knot i) :
    (U.withCopies k n u).isNonDecreasing = true := by
  have self : u ≤ u := (Scalar.Compares.le_self (high k (le_refl k) hk)).1
  refine isNonDecreasing_of_knot_le_succ fun i hi => ?_
  rw [size_withCopies] at hi
  rw [knot_withCopies hk.le, knot_withCopies hk.le]
  rcases Nat.lt_or_ge (i + 1) k with before | front
  · rw [if_pos (by omega), if_pos before]
    exact knot_le_succ h (by omega)
  · rw [if_neg (show ¬i + 1 < k by omega)]
    rcases Nat.lt_or_ge i k with last | behind
    · rw [if_pos last]
      split_ifs
      · exact low i last
      · exact Scalar.Compares.le_trans (low i last) (high _ (by omega) (by omega))
    · rw [if_neg (show ¬i < k by omega)]
      split_ifs
      · exact self
      · exact high _ (by omega) (by omega)
      · omega
      · rw [show i + 1 - n = i - n + 1 by omega]
        exact knot_le_succ h (by omega)

end KnotVector

namespace Spline

variable {S T : Spline α} {u : α} {m : Nat}

/-- What an insertion of copies that is defined does. -/
theorem insertTimes?_eq_some (pos : 0 < m) (ok : S.insertTimes? u m = some T) :
    S.degree ≤ S.place u ∧ S.place u - S.knots.count u < S.points.length
      ∧ S.knots.count u + m ≤ S.degree ∧ T.degree = S.degree
      ∧ T.knots = S.knots.withCopies (S.place u + 1) m u
      ∧ T.points.length = S.points.length + m := by
  rw [insertTimes?, if_neg pos.ne'] at ok
  split_ifs at ok with admitted
  cases ok
  obtain ⟨low, -, high, room⟩ := of_decide_eq_true admitted
  refine ⟨low, high, room, rfl, rfl, ?_⟩
  obtain ⟨row, same⟩ : ∃ row, row = (S.points.drop (S.place u - S.degree)).take
      (S.degree - S.knots.count u + 1) := ⟨_, rfl⟩
  have length : row.length = S.degree - S.knots.count u + 1 := by
    rw [same, List.length_take, List.length_drop]
    omega
  have rows := length_triangle S.knots u (S.place u + 1) (S.place u - S.degree + 1)
    (show m < row.length by omega)
  rw [length, same] at rows
  simp only [insertCopies, List.length_append, List.length_take, List.length_drop, rows]
  omega

end Spline

namespace Curve

open KnotVector

variable {c e : Curve α} {u : α} {k m : Nat}

/-- An insertion that succeeds computes a spline. -/
theorem exists_of_insertKnot_eq_ok (ok : c.insertKnot u m = .ok e) :
    0 < m ∧ ∃ S, c.spline.insertTimes? u m = some S ∧ e = c.withSpline S := by
  unfold Curve.insertKnot at ok
  dsimp only at ok
  split_ifs at ok with none outside limit full open_
  cases inserted : c.spline.insertTimes? u m with
  | none =>
      rw [inserted] at ok
      cases ok
  | some S =>
      rw [inserted] at ok
      cases ok
      exact ⟨Nat.pos_of_ne_zero none, S, rfl, rfl⟩

/-- Padding adds no copy of a number that has no more copies with it. -/
theorem superfluous_start_beq (none : c.spline.knots.count u ≤ c.knots.count u) :
    (c.knots.superfluous c.order .start == u) = false := by
  by_contra same
  have more : c.knots.count u + 1 ≤ c.spline.knots.count u := by
    show _ ≤ (c.knots.superfluous c.order .start :: c.knots.values ++ _).countP _
    rw [List.cons_append, List.countP_cons, List.countP_append,
        if_pos (Bool.not_eq_false _ ▸ same)]
    exact Nat.succ_le_succ (Nat.le_add_right _ _)
  omega

namespace Arranged

variable [Scalar.Compares α] (h : c.Arranged)

include h

/-! ## §2. Insertion. -/

/-- The last knot not above a number parts the knots that are not above it from those that are,
or that are not below it if it is a knot itself. -/
theorem knot_le_of_floor? (found : c.knots.floor? u = some k) :
    k < c.knots.size ∧ (∀ i ≤ k, c.knots.knot i ≤ u)
      ∧ ∀ i, k < i → i < c.knots.size → ¬c.knots.knot i ≤ u
        ∧ (u ∈ c.knots.values → u ≤ c.knots.knot i) := by
  have inside : k < c.knots.size := Sequence.lastIndex?_lt found
  obtain ⟨x, there, passes⟩ := Sequence.getElem?_lastIndex? found
  obtain rfl : c.knots.knot k = x :=
    Option.some.inj ((c.knots.getElem?_values inside).symm.trans there)
  have above : ∀ i, k < i → i < c.knots.size → ¬c.knots.knot i ≤ u := fun i lt hi => by
    have fails := Sequence.fails_of_lastIndex?_lt found lt (c.knots.getElem?_values hi)
    exact of_decide_eq_false fails
  refine ⟨inside, fun i le => ?_, fun i lt hi => ⟨above i lt hi, fun copy => ?_⟩⟩
  · exact Scalar.Compares.le_trans (h.knot_le le inside) (of_decide_eq_true passes)
  · -- the number is a knot, and so one of those up to the last that is not above it
    obtain ⟨j, hj, rfl⟩ := List.mem_iff_getElem.1 copy
    rw [← knot_eq_getElem c.knots hj] at above ⊢
    have before : j ≤ k := by
      by_contra behind
      exact above j (by omega) hj (h.knot_self hj)
    exact h.knot_le (by omega) hi

/-- Copies of a number inside the domain go behind the last knot that is not above it. -/
theorem insertTimes?_spec {S : Spline α} (between : c.Between u) (pos : 0 < m)
    (ok : c.spline.insertTimes? u m = some S) :
    ∃ k, c.knots.floor? u = some k ∧ c.degree ≤ k + 1 ∧ k + 1 < c.pointCount
      ∧ c.spline.knots.count u + m ≤ c.degree ∧ (c.withSpline S).order = c.order
      ∧ (c.withSpline S).pointCount = c.pointCount + m
      ∧ (c.withSpline S).knots = c.knots.withCopies (k + 1) m u
      ∧ S.knots.values = c.knots.superfluous c.order .start
        :: (c.knots.withCopies (k + 1) m u).values ++ [c.knots.superfluous c.order .finish] := by
  obtain ⟨two, enough, size, degree⟩ := h.counts
  obtain ⟨k, found, low, high⟩ := h.exists_floor? between
  obtain ⟨-, near, room, degree', knots, points⟩ := Spline.insertTimes?_eq_some pos ok
  have length : c.spline.points.length = c.pointCount := rfl
  have order : c.spline.degree = c.order - 1 := rfl
  -- the number is not put behind the knot that padding adds at the end
  have below : ¬c.knots.superfluous c.order .finish ≤ u := fun le => by
    have last : c.spline.knots.floor? u = some (c.knots.size + 1) :=
      (Sequence.lastIndex?_concat_of_passes
        (l := c.knots.superfluous c.order .start :: c.knots.values) (decide_eq_true le))
    rw [Spline.place, last, Option.getD_some] at near
    omega
  have place : c.spline.place u = k + 1 := by
    have behind : c.spline.knots.floor? u = some (k + 1) := floor?_cons_concat below found
    rw [Spline.place, behind, Option.getD_some]
  have inside : k + 1 ≤ c.knots.values.length := (h.knot_le_of_floor? found).1
  have values : S.knots.values = c.knots.superfluous c.order .start
      :: (c.knots.withCopies (k + 1) m u).values ++ [c.knots.superfluous c.order .finish] := by
    rw [knots, place]
    show (c.knots.superfluous c.order .start :: c.knots.values
        ++ [c.knots.superfluous c.order .finish]).take (k + 1 + 1) ++ List.replicate m u
      ++ (c.knots.superfluous c.order .start :: c.knots.values
        ++ [c.knots.superfluous c.order .finish]).drop (k + 1 + 1) = _
    simp [withCopies, List.take_append_of_le_length inside, List.drop_append_of_le_length inside]
  refine ⟨k, found, low, high, room, ?_, ?_, ?_, values⟩
  · show S.degree + 1 = c.order
    omega
  · show (c.points.withVectors S.points).vectors.length = _
    rw [ControlPoints.vectors_withVectors, points, length]
  · show S.knots.unpadded = _
    rw [unpadded, values, List.cons_append, List.tail_cons, List.dropLast_concat]

/-- The knots with the copies of one of them are in order. -/
theorem isNonDecreasing_withCopies (copy : u ∈ c.knots.values)
    (found : c.knots.floor? u = some k) (inside : k + 1 < c.knots.size) :
    (c.knots.withCopies (k + 1) m u).isNonDecreasing = true := by
  obtain ⟨-, low, high⟩ := h.knot_le_of_floor? found
  exact KnotVector.isNonDecreasing_withCopies h.ordered inside (fun i lt => low i (by omega))
    fun i le hi => (high i le hi).2 copy

/-- **An insertion of further copies of a knot leaves the curve arranged.** -/
theorem insertKnot (copy : u ∈ c.knots.values) (ok : c.insertKnot u m = .ok e) :
    e.Arranged ∧ e.domain = c.domain ∧ e.degree = c.degree
      ∧ e.knots.values.Perm (c.knots.values ++ List.replicate m u) := by
  obtain ⟨two, enough, size, degree⟩ := h.counts
  obtain ⟨start, finish, -⟩ := h.inside_of_insertKnot ok
  obtain ⟨pos, S, some, rfl⟩ := exists_of_insertKnot_eq_ok ok
  obtain ⟨k, found, low, high, -, order, count, knots, -⟩ :=
    h.insertTimes?_spec (h.between_knot start finish) pos some
  have knot : ∀ i, (c.withSpline S).knots.knot i
      = if i < k + 1 then c.knots.knot i
        else if i < k + 1 + m then u else c.knots.knot (i - m) := fun i => by
    rw [knots, knot_withCopies (by omega)]
  have size' : (c.withSpline S).knots.size = c.knots.size + m := by
    rw [knots, size_withCopies]
  have first : (c.withSpline S).knots.knot (c.order - 2) = c.domain.1 := by
    rw [knot, if_pos (by omega)]
    rfl
  have last : (c.withSpline S).knots.knot (c.pointCount + m - 1) = c.domain.2 := by
    rw [knot, if_neg (by omega), if_neg (by omega), h.finish_eq]
    exact congrArg _ (by omega)
  refine ⟨⟨order ▸ two, by omega, ?_, ?_, ?_, ?_⟩, Prod.ext ?_ ?_, ?_, ?_⟩
  · rw [order, count, size']
    omega
  · rw [knots]
    exact h.isNonDecreasing_withCopies copy found (by omega)
  · rw [order, first, knot]
    -- the first span is as it was, or ends with the copies
    split_ifs
    · exact h.first_span
    · exact Scalar.not_le_of_lt start
    · omega
  · rw [count, last, knot]
    -- the last span is as it was, or starts with the copies
    split_ifs
    · omega
    · exact Scalar.not_le_of_lt finish
    · rw [show c.pointCount + m - 2 - m = c.pointCount - 2 by omega, h.finish_eq]
      exact h.last_span
  · show (c.withSpline S).knots.knot ((c.withSpline S).order - 2) = _
    rw [order, first]
  · show (c.withSpline S).knots.knot ((c.withSpline S).knots.size + 1 - (c.withSpline S).order) = _
    rw [order, size', ← last]
    exact congrArg _ (by omega)
  · show (c.withSpline S).order - 1 = _
    rw [order]
    rfl
  · rw [knots]
    exact perm_withCopies _ _ _ _

/-! ## §3. Clamping. -/

/-- The copies of the start are the knots up to it, from the first of them on. -/
theorem exists_first_start : ∃ a < c.degree, (∀ i < a, (c.knots.knot i == c.domain.1) = false)
    ∧ (c.knots.knot a == c.domain.1) = true ∧ c.knots.count c.domain.1 + a = c.degree := by
  obtain ⟨two, enough, size, degree⟩ := h.counts
  have start : c.order - 2 < c.knots.size := by omega
  have self := h.knot_self start
  have some : ∃ a, (c.knots.knot a == c.domain.1) = true :=
    ⟨c.order - 2, Scalar.Compares.beq_iff.2 ⟨self, self⟩⟩
  obtain ⟨a, first⟩ : ∃ a, a = Nat.find some := ⟨_, rfl⟩
  have there : (c.knots.knot a == c.domain.1) = true := first ▸ Nat.find_spec some
  have before : ∀ i < a, (c.knots.knot i == c.domain.1) = false := fun i hi =>
    Bool.eq_false_iff.2 (Nat.find_min some (first ▸ hi))
  have le : a ≤ c.order - 2 :=
    first ▸ Nat.find_min' some (Scalar.Compares.beq_iff.2 ⟨self, self⟩)
  refine ⟨a, by omega, before, there, ?_⟩
  -- from the first copy to the start, all knots are copies, and no others are
  have copies : c.knots.count c.domain.1 = c.order - 1 - a :=
    count_of_window (by omega) (by omega) before
      (fun i hi hi' => Scalar.Compares.beq_iff.2 ⟨h.knot_le (by omega) start,
        Scalar.Compares.le_trans (Scalar.Compares.beq_iff.1 there).2 (h.knot_le hi (by omega))⟩)
      fun i hi inside => Bool.eq_false_iff.2 fun same => h.first_span
        (Scalar.Compares.le_trans (h.knot_le hi inside) (Scalar.Compares.beq_iff.1 same).1)
  omega

omit [Scalar.Compares α] in
/-- With as many further copies of the start as knots are dropped before it, a curve is
arranged. -/
theorem dropStart_withCopies {b : Curve α} {a : Nat} (pos : 0 < a) (order : b.order = c.order)
    (count : b.pointCount = c.pointCount + a)
    (knots : b.knots = c.knots.withCopies (c.order - 1) a c.domain.1)
    (inOrder : b.knots.isNonDecreasing = true) : (b.dropStart a).Arranged := by
  obtain ⟨two, enough, size, degree⟩ := h.counts
  have knot : ∀ i, (b.dropStart a).knots.knot i = if i + a < c.order - 1 then c.knots.knot (i + a)
      else if i < c.order - 1 then c.domain.1 else c.knots.knot i := fun i => by
    rw [knot_dropStart, knots, knot_withCopies (by omega)]
    simp only [Nat.add_lt_add_iff_right, Nat.add_sub_cancel]
  have size' : b.knots.size = c.knots.size + a := by rw [knots, size_withCopies]
  have dropped : (b.dropStart a).knots.size = c.knots.size := by
    have drop := knotCount_dropStart b a
    rw [show b.knotCount = c.knots.size + a from size', Nat.add_sub_cancel] at drop
    exact drop
  have count' : (b.dropStart a).pointCount = c.pointCount := by
    rw [pointCount_dropStart, count, Nat.add_sub_cancel]
  have order' : (b.dropStart a).order = c.order := order
  have start : (b.dropStart a).knots.knot (c.order - 2) = c.domain.1 := by
    rw [knot, if_neg (by omega), if_pos (by omega)]
  have behind : ∀ i, c.order - 1 ≤ i → (b.dropStart a).knots.knot i = c.knots.knot i :=
    fun i hi => by rw [knot, if_neg (by omega), if_neg (by omega)]
  refine ⟨order'.symm ▸ two, by omega, by omega, ?_, ?_, ?_⟩
  · refine isNonDecreasing_of_knot_le_succ fun i hi => ?_
    rw [knot_dropStart, knot_dropStart, Nat.add_right_comm]
    exact knot_le_succ inOrder (by omega)
  · rw [order', start, behind _ (le_refl _)]
    exact h.first_span
  · rw [count', behind _ (by omega)]
    rcases Nat.lt_or_ge (c.pointCount - 2) (c.order - 1) with short | long
    · -- the only span
      have last := h.last_span
      rw [show c.pointCount - 2 = c.order - 2 by omega] at last ⊢
      rwa [start]
    · rw [behind _ long]
      exact h.last_span

/-- The copies that clamp an open start go behind the knots up to it, and the first knot that
equals it stays in its place. -/
theorem insertTimes?_start {S : Spline α} (isOpen : ¬c.isClamped .start = true)
    (some : c.spline.insertTimes? c.domain.1 (c.degree - c.knots.count c.domain.1) = some S) :
    ∃ a, 0 < a ∧ (c.withSpline S).order = c.order
      ∧ (c.withSpline S).pointCount = c.pointCount + a
      ∧ (c.withSpline S).knots = c.knots.withCopies (c.order - 1) a c.domain.1
      ∧ (c.withSpline S).knots.isNonDecreasing = true
      ∧ S.knots.values.findIdx? (· == c.domain.1) = .some (a + 1) := by
  obtain ⟨two, enough, size, degree⟩ := h.counts
  obtain ⟨a, less, before, there, copies⟩ := h.exists_first_start
  have pos : 0 < a := Nat.pos_of_ne_zero fun none => by
    rw [none] at there
    exact isOpen there
  rw [show c.degree - c.knots.count c.domain.1 = a by omega] at some
  obtain ⟨k, found, low, high, room, order, count, knots, values⟩ :=
    h.insertTimes?_spec (h.between_start (Bool.eq_false_iff.2 isOpen)) pos some
  obtain ⟨-, upTo, -⟩ := h.knot_le_of_floor? found
  have start : c.order - 2 < c.knots.size := by omega
  have copy : c.domain.1 ∈ c.knots.values := List.mem_of_getElem? (c.knots.getElem?_values start)
  have inOrder : (c.withSpline S).knots.isNonDecreasing = true := by
    rw [knots]
    exact h.isNonDecreasing_withCopies copy found (by omega)
  -- the first span is not empty, so no knot behind the start is up to it
  have place : k + 1 = c.order - 1 := by
    by_contra beyond
    exact h.first_span (upTo (c.order - 1) (by omega))
  rw [place] at knots
  have knot : ∀ i < c.order - 1, (c.withSpline S).knots.knot i = c.knots.knot i :=
    fun i hi => by rw [knots, knot_withCopies (by omega), if_pos hi]
  have inside : a < (c.withSpline S).knots.size := by
    rw [knots, size_withCopies]
    omega
  -- the knot that padding adds is no copy, for which there would be no room
  have other := superfluous_start_beq (show c.spline.knots.count c.domain.1
    ≤ c.knots.count c.domain.1 by omega)
  refine ⟨a, pos, order, count, knots, inOrder, ?_⟩
  rw [values, place, ← knots]
  refine findIdx?_cons_concat other inside (fun i hi => ?_) ?_
  · rw [knot i (by omega)]
    exact before i hi
  · rw [knot a (by omega)]
    exact there

/-- **Clamping the start leaves a curve arranged.** -/
theorem clampStart (ok : c.clampStart = .ok e) : e.Arranged := by
  unfold Curve.clampStart at ok
  split_ifs at ok with clamped
  · cases ok
    exact h
  dsimp only at ok
  cases inserted : c.spline.insertTimes? c.domain.1 (c.degree - c.knots.count c.domain.1) with
  | none =>
      rw [inserted] at ok
      cases ok
  | some S =>
      rw [inserted] at ok
      dsimp only at ok
      obtain ⟨a, pos, order, count, knots, inOrder, first⟩ :=
        h.insertTimes?_start clamped inserted
      have points : S.points.length = c.pointCount + a := by
        rw [← count, pointCount_withSpline]
      rw [trimStart_eq order first (by omega)] at ok
      cases ok
      exact h.dropStart_withCopies pos order count knots inOrder

omit [Scalar.Compares α] in
/-- So does turning it round. -/
theorem invert [Scalar.Reverses α] : c.invert.Arranged := by
  obtain ⟨two, enough, size, degree⟩ := h.counts
  have size' : c.invert.knots.size = c.knots.size := c.knots.size_invert
  have mirror : ∀ {i j}, i + j + 1 = c.knots.size → c.invert.knots.knot i = -c.knots.knot j :=
    fun opposite => c.knots.knot_invert_opposite opposite
  have order : c.invert.order = c.order := rfl
  have count := c.pointCount_invert
  refine ⟨two, count ▸ enough, by rw [count, size', size, order], ?_, ?_, ?_⟩
  · refine isNonDecreasing_of_knot_le_succ fun i hi => ?_
    rw [size'] at hi
    rw [mirror (show i + (c.knots.size - 2 - i + 1) + 1 = _ by omega),
        mirror (show i + 1 + (c.knots.size - 2 - i) + 1 = _ by omega)]
    exact Scalar.Reverses.neg_le_neg_iff.2 (knot_le_succ h.ordered (by omega))
  · rw [order, mirror (show c.order - 1 + (c.pointCount - 2) + 1 = _ by omega),
        mirror (show c.order - 2 + (c.pointCount - 1) + 1 = _ by omega)]
    exact fun le => h.last_span (Scalar.Reverses.neg_le_neg_iff.1 le)
  · rw [count, mirror (show c.pointCount - 1 + (c.order - 2) + 1 = _ by omega),
        mirror (show c.pointCount - 2 + (c.order - 1) + 1 = _ by omega)]
    exact fun le => h.first_span (Scalar.Reverses.neg_le_neg_iff.1 le)

/-- **Clamping both ends leaves a curve arranged.** -/
theorem clampEnds [Scalar.Reverses α] (ok : c.clampEnds = .ok e) : e.Arranged := by
  replace ok : (c.clampStart.bind fun b => b.invert.clampStart.map Curve.invert) = .ok e := ok
  cases first : c.clampStart with
  | error f =>
      rw [first] at ok
      cases ok
  | ok b =>
      rw [first] at ok
      replace ok : b.invert.clampStart.map Curve.invert = .ok e := ok
      cases second : b.invert.clampStart with
      | error f =>
          rw [second] at ok
          cases ok
      | ok d =>
          rw [second] at ok
          cases ok
          exact ((h.clampStart first).invert.clampStart second).invert

/-! ## §4. The missing knots. -/

omit h in
/-- Inside the domain, an insertion for which there is room is not refused. -/
theorem insertKnot_eq_error {f : Failure α} (pos : 0 < m) (start : c.domain.1 < u)
    (finish : u < c.domain.2) (room : c.knots.count u + m ≤ c.degree)
    (error : c.insertKnot u m = .error f) : f = .undefined := by
  have apart : (u == c.domain.1) = false ∧ (u == c.domain.2) = false :=
    ⟨Scalar.beq_eq_false_of_gt start, Scalar.beq_eq_false_of_lt finish⟩
  unfold Curve.insertKnot at error
  dsimp only at error
  rw [if_neg pos.ne', if_neg (not_not.2 ⟨Scalar.le_of_lt start, Scalar.le_of_lt finish⟩)] at error
  split_ifs at error with limit full open_
  · cases error
    rfl
  · exact absurd room (Nat.not_le_of_lt full)
  · simp [apart] at open_
  · cases inserted : c.spline.insertTimes? u m with
    | none =>
        rw [inserted] at error
        cases error
        rfl
    | some S =>
        rw [inserted] at error
        cases error

/-- **Insertable knots are inserted**, up to the first of which the insertion has no meaning. -/
theorem insertEach_failure {ms : List (KnotMultiplicity α)} (insertable : Insertable c ms)
    (copies : ∀ a ∈ ms, a.knot ∈ c.knots.values) {f : Failure α}
    (failed : (c.insertEach ms).failure = some f) : f = .undefined := by
  induction ms generalizing c with
  | nil => cases failed
  | cons a ms ih =>
      obtain ⟨start, finish⟩ := insertable.inside a List.mem_cons_self
      rw [insertEach] at failed
      cases inserted : c.insertKnot a.knot a.multiplicity with
      | error g =>
          rw [inserted] at failed
          cases failed
          exact insertKnot_eq_error (insertable.pos a List.mem_cons_self) start finish
            (insertable.room a List.mem_cons_self) inserted
      | ok e =>
          rw [inserted] at failed
          obtain ⟨arranged, domain, degree, perm⟩ :=
            h.insertKnot (copies a List.mem_cons_self) inserted
          refine ih arranged (insertable.tail domain degree perm) (fun b hb => ?_) failed
          exact perm.mem_iff.2 (List.mem_append_left _ (copies b (List.mem_cons_of_mem _ hb)))

/-- **None of the missing knots is refused.** -/
theorem insertEach_missingKnots {f : Failure α}
    (failed : (c.insertEach c.missingKnots).failure = some f) : f = .undefined := by
  obtain ⟨two, enough, size, degree⟩ := h.counts
  exact h.insertEach_failure
    (insertable_missingKnots (pairwise_of_isNonDecreasing h.ordered (by omega)))
    (fun a ha => knot_mem_of_mem_missingKnots ha) failed

end Arranged

end Curve

end RationalSpline
