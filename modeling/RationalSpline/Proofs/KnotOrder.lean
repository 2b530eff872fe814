/-
  RationalSpline.Proofs.KnotOrder
  ───────────────────────────────
  KNOTS IN ORDER.

  Knot vectors over exact numbers whose knots do not decrease: reading by index is
  monotone, padding and the parts of a vector keep the order, and counting knots
  below or above a value gives the indices at which the value is passed.
-/
import RationalSpline.Proofs.Exact

namespace RationalSpline

/-! ## §1. Tests that a prefix of a list passes. -/

namespace Sequence

variable {β : Type} {test : β → Bool}

theorem countP_eq_zero_of_head {a : β} {l : List β}
    (h : (a :: l).Pairwise fun x y => test y = true → test x = true) (ha : test a = false) :
    l.countP test = 0 := by
  refine List.countP_eq_zero.2 fun x hx hpass => ?_
  have := List.rel_of_pairwise_cons h hx hpass
  simp [ha] at this

/-- An entry passes the test exactly if its index is below the number of those that do. -/
theorem getElem_iff_lt_countP {l : List β}
    (h : l.Pairwise fun x y => test y = true → test x = true) {i : Nat} (hi : i < l.length) :
    test l[i] = true ↔ i < l.countP test := by
  induction l generalizing i with
  | nil => simp at hi
  | cons a l ih =>
      by_cases ha : test a = true
      · cases i with
        | zero => simp [ha]
        | succ i => simp [ha, ih h.of_cons (by simpa using hi)]
      · have ha' : test a = false := by simpa using ha
        have none : l.countP test = 0 := countP_eq_zero_of_head h ha'
        cases i with
        | zero => simp [ha', none]
        | succ i => simp [ha', none, ih h.of_cons (by simpa using hi)]

theorem filter_eq_take {l : List β}
    (h : l.Pairwise fun x y => test y = true → test x = true) :
    l.filter test = l.take (l.countP test) := by
  induction l with
  | nil => rfl
  | cons a l ih =>
      by_cases ha : test a = true
      · simp [ha, ih h.of_cons]
      · have ha' : test a = false := by simpa using ha
        simp [ha', countP_eq_zero_of_head h ha', ih h.of_cons]

theorem filter_not_eq_drop {l : List β}
    (h : l.Pairwise fun x y => test y = true → test x = true) :
    l.filter (fun x => !test x) = l.drop (l.countP test) := by
  induction l with
  | nil => rfl
  | cons a l ih =>
      by_cases ha : test a = true
      · simp [ha, ih h.of_cons]
      · have ha' : test a = false := by simpa using ha
        simp [ha', countP_eq_zero_of_head h ha', ih h.of_cons]

/-- The last entry that passes is the last of the prefix. -/
theorem lastIndex?_eq {l : List β}
    (h : l.Pairwise fun x y => test y = true → test x = true) :
    lastIndex? test l = if l.countP test = 0 then none else some (l.countP test - 1) := by
  induction l with
  | nil => rfl
  | cons a l ih =>
      by_cases ha : test a = true
      · rw [lastIndex?, ih h.of_cons]
        by_cases none : l.countP test = 0
        · simp [none, ha]
        · simp only [none, if_false, List.countP_cons_of_pos ha]
          rw [if_neg (by omega)]
          exact congrArg some (by omega)
      · have ha' : test a = false := by simpa using ha
        rw [lastIndex?, ih h.of_cons]
        simp [ha', countP_eq_zero_of_head h ha']

/-- An entry that passes is found, or one behind it. -/
theorem exists_lastIndex? {l : List β} {i : Nat} {x : β} (there : l[i]? = some x)
    (passes : test x = true) : ∃ r, lastIndex? test l = some r ∧ i ≤ r := by
  induction l generalizing i with
  | nil => simp at there
  | cons y l ih =>
      cases i with
      | zero =>
          obtain rfl : y = x := by simpa using there
          cases rest : lastIndex? test l with
          | none => exact ⟨0, by simp [lastIndex?, rest, passes], le_refl 0⟩
          | some r => exact ⟨r + 1, by simp [lastIndex?, rest], Nat.zero_le _⟩
      | succ i =>
          obtain ⟨r, found, le⟩ := ih (by simpa using there)
          exact ⟨r + 1, by simp [lastIndex?, found], Nat.succ_le_succ le⟩

end Sequence

namespace KnotVector

variable {K : Type} [Field K] [LinearOrder K]

/-! ## §2. Reading by index. -/

theorem knot_eq_getElem {α : Type} [Scalar α] (U : KnotVector α) {i : Nat}
    (h : i < U.values.length) : U.knot i = U.values[i] := by
  simp [knot, List.getD_eq_getElem?_getD, List.getElem?_eq_getElem h]

theorem knot_mem (U : KnotVector K) {i : Nat} (h : i < U.size) : U.knot i ∈ U.values := by
  rw [knot_eq_getElem U h]
  exact List.getElem_mem h

/-- The last of the knots that equal one. -/
theorem exists_lastIndex?_knot (U : KnotVector K) {i : Nat} (h : i < U.size) :
    ∃ r, Sequence.lastIndex? (· == U.knot i) U.values = some r ∧ i ≤ r ∧ r < U.size
      ∧ U.knot r = U.knot i := by
  have there : U.values[i]? = some (U.knot i) := by
    rw [knot_eq_getElem U h]
    exact List.getElem?_eq_getElem _
  obtain ⟨r, found, le⟩ : ∃ r, Sequence.lastIndex? (· == U.knot i) U.values = some r ∧ i ≤ r :=
    Sequence.exists_lastIndex? there (beq_self_eq_true _)
  obtain ⟨x, entry, same⟩ := Sequence.getElem?_lastIndex? found
  refine ⟨r, found, le, Sequence.lastIndex?_lt found, ?_⟩
  rw [knot, List.getD_eq_getElem?_getD, entry]
  exact eq_of_beq same

/-- A knot is among those from its index on. -/
theorem knot_mem_drop (U : KnotVector K) {i : Nat} (h : i < U.size) :
    U.knot i ∈ U.values.drop i := by
  rw [knot_eq_getElem U h, List.drop_eq_getElem_cons h]
  exact List.mem_cons_self

theorem exists_knot_of_mem {U : KnotVector K} {k : K} (h : k ∈ U.values) :
    ∃ i < U.size, U.knot i = k := by
  obtain ⟨i, hi, rfl⟩ := List.mem_iff_getElem.1 h
  exact ⟨i, hi, knot_eq_getElem U hi⟩

/-! ## §3. The order. -/

/-- No knot is smaller than one before it. -/
def Ordered (U : KnotVector K) : Prop := U.values.Pairwise (· ≤ ·)

theorem isNonDecreasing_iff (U : KnotVector K) : U.isNonDecreasing = true ↔ U.Ordered := by
  obtain ⟨values⟩ := U
  simp only [isNonDecreasing, Ordered, Sequence.neighbours]
  induction values with
  | nil => simp
  | cons a rest ih =>
      cases rest with
      | nil => simp
      | cons b rest =>
          simp only [List.tail_cons, List.zip_cons_cons, List.all_cons, Bool.and_eq_true,
            decide_eq_true_eq] at ih ⊢
          rw [ih]
          constructor
          · rintro ⟨hab, h⟩
            refine List.pairwise_cons.2 ⟨fun c hc => ?_, h⟩
            rcases List.mem_cons.1 hc with rfl | hc
            · exact hab
            · exact le_trans hab (List.rel_of_pairwise_cons h hc)
          · intro h
            exact ⟨List.rel_of_pairwise_cons h List.mem_cons_self, h.of_cons⟩

theorem Ordered.knot_le {U : KnotVector K} (h : U.Ordered) {i j : Nat} (hij : i ≤ j)
    (hj : j < U.size) : U.knot i ≤ U.knot j := by
  rcases Nat.lt_or_eq_of_le hij with hlt | rfl
  · rw [knot_eq_getElem U (lt_trans hlt hj), knot_eq_getElem U hj]
    exact List.pairwise_iff_getElem.1 h i j _ hj hlt
  · exact le_refl _

theorem ordered_of_knot_le {U : KnotVector K}
    (h : ∀ i j, i < j → j < U.size → U.knot i ≤ U.knot j) : U.Ordered := by
  refine List.pairwise_iff_getElem.2 fun i j hi hj hij => ?_
  have := h i j hij hj
  rwa [knot_eq_getElem U hi, knot_eq_getElem U hj] at this

/-- A knot strictly below another comes before it. -/
theorem Ordered.lt_of_knot_lt {U : KnotVector K} (h : U.Ordered) {i j : Nat} (hi : i < U.size)
    (hlt : U.knot i < U.knot j) : i < j := by
  by_contra hji
  exact absurd (h.knot_le (not_lt.1 hji) hi) (not_le.2 hlt)

/-! ## §4. Counting below a value. -/

/-- The number of knots below a value. -/
def countBelow (U : KnotVector K) (u : K) : Nat := U.values.countP fun k => decide (k < u)

/-- The number of knots not above a value. -/
def countUpTo (U : KnotVector K) (u : K) : Nat := U.values.countP fun k => decide (k ≤ u)

theorem count_eq_list_count (U : KnotVector K) (u : K) : U.count u = U.values.count u := by
  simp only [count, List.count]

theorem countUpTo_eq (U : KnotVector K) (u : K) :
    U.countUpTo u = U.countBelow u + U.count u := by
  obtain ⟨values⟩ := U
  simp only [countUpTo, countBelow, count]
  induction values with
  | nil => rfl
  | cons k ks ih =>
      rw [List.countP_cons, List.countP_cons, List.countP_cons, ih]
      rcases lt_trichotomy k u with h | rfl | h
      · simp only [h, h.le, h.ne, decide_true, if_true, beq_iff_eq, if_false]
        omega
      · simp only [le_refl, lt_irrefl, decide_true, decide_false, if_true, beq_self_eq_true]
        simp only [Bool.false_eq_true, if_false]
        omega
      · simp [not_lt.2 h.le, not_le.2 h, h.ne']

theorem countUpTo_le_size (U : KnotVector K) (u : K) : U.countUpTo u ≤ U.size :=
  List.countP_le_length

/-- The number of knots strictly between two values. -/
theorem length_between (U : KnotVector K) {a b : K} (hab : a < b) :
    (U.values.filter fun k => decide (a < k ∧ k < b)).length + U.countUpTo a
      = U.countBelow b := by
  obtain ⟨values⟩ := U
  simp only [countUpTo, countBelow]
  induction values with
  | nil => rfl
  | cons k ks ih =>
      rw [List.filter_cons, List.countP_cons, List.countP_cons, ← ih]
      by_cases low : k ≤ a
      · simp only [low, not_lt.2 low, lt_of_le_of_lt low hab, false_and, decide_true,
          decide_false, if_true, Bool.false_eq_true, if_false]
        omega
      · by_cases high : k < b
        · simp only [low, not_le.1 low, high, and_self, decide_true, decide_false, if_true,
            Bool.false_eq_true, if_false, List.length_cons]
          omega
        · simp [low, high]

theorem Ordered.below_prefix {U : KnotVector K} (h : U.Ordered) (u : K) :
    U.values.Pairwise fun x y => decide (y < u) = true → decide (x < u) = true :=
  h.imp fun hxy hy => decide_eq_true (lt_of_le_of_lt hxy (of_decide_eq_true hy))

theorem Ordered.upTo_prefix {U : KnotVector K} (h : U.Ordered) (u : K) :
    U.values.Pairwise fun x y => decide (y ≤ u) = true → decide (x ≤ u) = true :=
  h.imp fun hxy hy => decide_eq_true (le_trans hxy (of_decide_eq_true hy))

theorem Ordered.knot_lt_iff {U : KnotVector K} (h : U.Ordered) {u : K} {i : Nat}
    (hi : i < U.size) : U.knot i < u ↔ i < U.countBelow u := by
  rw [knot_eq_getElem U hi, countBelow, ← Sequence.getElem_iff_lt_countP (h.below_prefix u) hi,
    decide_eq_true_eq]

theorem Ordered.knot_le_iff {U : KnotVector K} (h : U.Ordered) {u : K} {i : Nat}
    (hi : i < U.size) : U.knot i ≤ u ↔ i < U.countUpTo u := by
  rw [knot_eq_getElem U hi, countUpTo, ← Sequence.getElem_iff_lt_countP (h.upTo_prefix u) hi,
    decide_eq_true_eq]

/-- The knots equal to `u` are those from `countBelow u` up to `countUpTo u`. -/
theorem Ordered.knot_eq_iff {U : KnotVector K} (h : U.Ordered) {u : K} {i : Nat}
    (hi : i < U.size) : U.knot i = u ↔ U.countBelow u ≤ i ∧ i < U.countUpTo u := by
  rw [← h.knot_le_iff hi, ← not_lt, ← h.knot_lt_iff hi, not_lt, le_antisymm_iff, and_comm]

/-- Equal knots in a row are no more than there are copies. -/
theorem Ordered.le_count {U : KnotVector K} (h : U.Ordered) {i n : Nat} {u : K}
    (inside : i + n ≤ U.size) (same : ∀ r < n, U.knot (i + r) = u) : n ≤ U.count u := by
  rcases Nat.eq_zero_or_pos n with rfl | pos
  · exact Nat.zero_le _
  · have first := (h.knot_eq_iff (by omega)).1 (same 0 pos)
    have last := (h.knot_eq_iff (by omega)).1 (same (n - 1) (by omega))
    have total := U.countUpTo_eq u
    omega

theorem Ordered.floor?_eq {U : KnotVector K} (h : U.Ordered) {u : K} (hu : 0 < U.countUpTo u) :
    U.floor? u = some (U.countUpTo u - 1) := by
  rw [floor?, Sequence.lastIndex?_eq (h.upTo_prefix u)]
  exact if_neg (show U.countUpTo u ≠ 0 by omega)

/-- The knots up to a value and the knots above it. -/
theorem Ordered.take_countUpTo {U : KnotVector K} (h : U.Ordered) (u : K) :
    U.values.take (U.countUpTo u) = U.values.filter fun k => decide (k ≤ u) :=
  (Sequence.filter_eq_take (h.upTo_prefix u)).symm

theorem Ordered.drop_countUpTo {U : KnotVector K} (h : U.Ordered) (u : K) :
    U.values.drop (U.countUpTo u) = U.values.filter fun k => decide (u < k) := by
  rw [countUpTo, ← Sequence.filter_not_eq_drop (h.upTo_prefix u)]
  refine List.filter_congr fun k _ => ?_
  rw [← decide_not]
  exact decide_eq_decide.2 not_le

/-- The first of the knots equal to a value. -/
theorem Ordered.findIdx?_eq {U : KnotVector K} (h : U.Ordered) {u : K}
    (pos : 0 < U.count u) :
    U.values.findIdx? (· == u) = some (U.countBelow u) := by
  have split := countUpTo_eq U u
  have size := countUpTo_le_size U u
  have inside : U.countBelow u < U.values.length := by
    show _ < U.size
    omega
  refine List.findIdx?_eq_some_iff_getElem.2 ⟨inside, ?_, fun j hj => ?_⟩
  · rw [beq_iff_eq, ← knot_eq_getElem U inside]
    exact (h.knot_eq_iff inside).2 ⟨le_refl _, by omega⟩
  · rw [beq_iff_eq, ← knot_eq_getElem U (lt_trans hj inside)]
    exact ne_of_lt ((h.knot_lt_iff (lt_trans hj inside)).2 hj)

/-- The knots up to a value end in its copies. -/
theorem Ordered.filter_le_eq {U : KnotVector K} (h : U.Ordered) (u : K) :
    (U.values.filter fun k => decide (k ≤ u))
      = (U.values.filter fun k => decide (k < u)) ++ List.replicate (U.count u) u := by
  have ordered : (⟨U.values.filter fun k => decide (k ≤ u)⟩ : KnotVector K).Ordered := h.filter _
  have cut := List.take_append_drop
    (countBelow ⟨U.values.filter fun k => decide (k ≤ u)⟩ u)
    (U.values.filter fun k => decide (k ≤ u))
  rw [countBelow, ← Sequence.filter_eq_take (ordered.below_prefix u),
      ← Sequence.filter_not_eq_drop (ordered.below_prefix u), List.filter_filter,
      List.filter_filter] at cut
  have first : (U.values.filter fun k => decide (k < u) && decide (k ≤ u))
      = U.values.filter fun k => decide (k < u) :=
    List.filter_congr fun k _ => by
      rw [← Bool.decide_and]
      exact decide_eq_decide.2 ⟨fun e => e.1, fun e => ⟨e, e.le⟩⟩
  have last : (U.values.filter fun k => !decide (k < u) && decide (k ≤ u))
      = U.values.filter (· == u) :=
    List.filter_congr fun k _ => by
      rw [← decide_not, ← Bool.decide_and]
      exact decide_eq_decide.2 ⟨fun e => le_antisymm e.2 (not_lt.1 e.1),
        fun e => ⟨not_lt.2 e.ge, e.le⟩⟩
  rw [← cut, first, last, List.filter_beq, count_eq_list_count]

/-- The knots below a value, its copies, and the knots above it. -/
theorem Ordered.values_eq {U : KnotVector K} (h : U.Ordered) (u : K) :
    U.values = (U.values.filter fun k => decide (k < u)) ++ List.replicate (U.count u) u
      ++ U.values.filter fun k => decide (u < k) := by
  rw [← h.filter_le_eq, ← h.take_countUpTo, ← h.drop_countUpTo, List.take_append_drop]

/-! ## §5. Padding. -/

theorem knot_padded_last (U : KnotVector K) (order : Nat) :
    (U.padded order).knot (U.size + 1) = U.superfluous order .finish := by
  simp [padded, knot, size]

/-- Without the two end knots the index goes down by one. -/
theorem knot_unpadded {α : Type} [Scalar α] (W : KnotVector α) {i : Nat}
    (h : i + 2 < W.size) : W.unpadded.knot i = W.knot (i + 1) := by
  have tail : i < W.values.tail.length - 1 := by
    rw [List.length_tail]
    show i < W.size - 1 - 1
    omega
  simp only [knot, unpadded, List.getD_eq_getElem?_getD]
  rw [List.dropLast_eq_take, List.getElem?_take_of_lt tail, List.getElem?_tail]

variable [IsStrictOrderedRing K]

theorem Ordered.superfluous_start_le {U : KnotVector K} (h : U.Ordered) (order : Nat) :
    U.superfluous order .start ≤ U.knot 0 := by
  unfold superfluous
  split
  · exact le_refl _
  · next open_ =>
      have second : U.knot 0 ≤ U.knot 1 := h.knot_le (by omega) (by
        have := not_or.1 open_
        omega)
      show U.knot 0 + U.knot 0 - U.knot 1 ≤ U.knot 0
      linarith

theorem Ordered.le_superfluous_finish {U : KnotVector K} (h : U.Ordered) (order : Nat) :
    U.knot (U.size - 1) ≤ U.superfluous order .finish := by
  unfold superfluous
  split
  · exact le_refl _
  · next open_ =>
      have second : U.knot (U.size - 2) ≤ U.knot (U.size - 1) := h.knot_le (by omega) (by
        have := not_or.1 open_
        omega)
      show U.knot (U.size - 1) ≤ U.knot (U.size - 1) + U.knot (U.size - 1) - U.knot (U.size - 2)
      linarith

theorem Ordered.padded {U : KnotVector K} (h : U.Ordered) (hU : 0 < U.size) (order : Nat) :
    (U.padded order).Ordered := by
  have first : ∀ j < U.size, U.superfluous order .start ≤ U.knot j := fun j hj =>
    le_trans (h.superfluous_start_le order) (h.knot_le (Nat.zero_le j) hj)
  have last : ∀ j < U.size, U.knot j ≤ U.superfluous order .finish := fun j hj =>
    le_trans (h.knot_le (by omega) (by omega)) (h.le_superfluous_finish order)
  refine ordered_of_knot_le fun i j hij hj => ?_
  simp only [size_padded] at hj
  rcases Nat.lt_or_eq_of_le (show j ≤ U.size + 1 by omega) with hjl | rfl
  · obtain ⟨j, rfl⟩ : ∃ j', j = j' + 1 := ⟨j - 1, by omega⟩
    rw [knot_padded U order (show j < U.size by omega)]
    cases i with
    | zero => exact first j (by omega)
    | succ i =>
        rw [knot_padded U order (show i < U.size by omega)]
        exact h.knot_le (by omega) (by omega)
  · rw [knot_padded_last]
    cases i with
    | zero => exact le_trans (first 0 hU) (last 0 hU)
    | succ i =>
        rw [knot_padded U order (show i < U.size by omega)]
        exact last i (by omega)

end KnotVector

end RationalSpline
