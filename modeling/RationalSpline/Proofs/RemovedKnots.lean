/-
  RationalSpline.Proofs.RemovedKnots
  ──────────────────────────────────
  WHICH KNOTS A REMOVAL TAKES.

  Each removal takes one knot and one control point away, and the vectors it solves for
  have the size of those it starts from.  Of a run of equal knots the last one goes.  Where
  the order makes equal what lies between equal knots, as numbers that compare do, the knots
  that are left equal those at the other indices, and the ends of the domain and of the
  control polygon stay.
-/
import RationalSpline.Proofs.Arranged
import RationalSpline.Proofs.Insertion

namespace RationalSpline

theorem Sequence.getLastD_mem {β : Type} {values : List β} (h : values ≠ []) (b : β) :
    values.getLastD b ∈ values := by
  rw [List.getLastD_eq_getLast?, List.getLast?_eq_some_getLast h]
  exact List.getLast_mem h

/-- Knots that equal those before a gap of `n` and those behind it are the others in order. -/
theorem KnotVector.forall₂_dropped {α : Type} [Scalar α] {U W : KnotVector α} {low n : Nat}
    (size : W.size + n = U.size) (le : low + n ≤ U.size)
    (before : ∀ i < low, (W.knot i == U.knot i) = true)
    (behind : ∀ i, low ≤ i → i < W.size → (W.knot i == U.knot (i + n)) = true) :
    List.Forall₂ (fun a b => (a == b) = true) W.values
      (U.values.take low ++ U.values.drop (low + n)) := by
  have whole : U.values.length = U.size := rfl
  have whole' : W.values.length = W.size := rfl
  have taken : (U.values.take low).length = low := by
    rw [List.length_take]
    omega
  refine List.forall₂_iff_get.2 ⟨?_, fun i hi hi' => ?_⟩
  · rw [List.length_append, taken, List.length_drop]
    omega
  · show (W.values[i] == (U.values.take low ++ U.values.drop (low + n))[i]) = true
    rw [← knot_eq_getElem _ hi]
    rcases Nat.lt_or_ge i low with first | later
    · rw [List.getElem_append_left (by omega), List.getElem_take,
          ← knot_eq_getElem _ (by omega)]
      exact before i first
    · have equal := behind i later hi
      rw [knot_eq_getElem U (by omega)] at equal
      rw [List.getElem_append_right (by omega), List.getElem_drop]
      convert equal using 3
      omega

namespace Spline

variable {α : Type} [Scalar α] {S T : Spline α} {d : Nat}

/-! ## §1. One removal. -/

theorem sized_sweepUp {U : KnotVector α} {p i : Nat} {u : α} {before : Point α}
    {points : List (Point α)} (first : before.length = d) (sized : ∀ x ∈ points, x.length = d) :
    ∀ x ∈ sweepUp U p u i before points, x.length = d := by
  induction points generalizing i before with
  | nil => simp [sweepUp]
  | cons q qs ih =>
      have solved : (Point.divide (Point.sub q (Point.scale before (1 - ratio U p u i)))
          (ratio U p u i)).length = d := by
        rw [Point.length_divide, Point.length_sub, Point.length_scale, first,
            sized q List.mem_cons_self, Nat.min_self]
      intro x hx
      rw [sweepUp] at hx
      rcases List.mem_cons.1 hx with rfl | hx
      · exact solved
      · exact ih solved (fun y hy => sized y (List.mem_cons_of_mem _ hy)) x hx

theorem sized_sweepDown {U : KnotVector α} {p j : Nat} {u : α} {after : Point α}
    {points : List (Point α)} (first : after.length = d) (sized : ∀ x ∈ points, x.length = d) :
    ∀ x ∈ sweepDown U p u j after points, x.length = d := by
  induction points generalizing j after with
  | nil => simp [sweepDown]
  | cons q qs ih =>
      have solved : (Point.divide (Point.sub q (Point.scale after (ratio U p u j)))
          (1 - ratio U p u j)).length = d := by
        rw [Point.length_divide, Point.length_sub, Point.length_scale, first,
            sized q List.mem_cons_self, Nat.min_self]
      intro x hx
      rw [sweepDown] at hx
      rcases List.mem_cons.1 hx with rfl | hx
      · exact solved
      · exact ih solved (fun y hy => sized y (List.mem_cons_of_mem _ hy)) x hx

theorem sized_unblend {u : α} {first last : Nat} (pos : 0 < first) (le : first ≤ last)
    (inside : last + 1 < S.points.length) (sized : ∀ x ∈ S.points, x.length = d) :
    ∀ x ∈ S.unblend u first last, x.length = d := by
  have entry : ∀ i < S.points.length, (S.points.getD i []).length = d := fun i hi => by
    rw [List.getD_eq_getElem _ _ hi]
    exact sized _ (List.getElem_mem hi)
  have up : ∀ n, ∀ x ∈ sweepUp S.knots S.degree u first (S.points.getD (first - 1) [])
      ((S.points.drop first).take n), x.length = d := fun n =>
    sized_sweepUp (entry _ (by omega)) fun x hx =>
      sized x (List.mem_of_mem_drop (List.mem_of_mem_take hx))
  have down : ∀ n, ∀ x ∈ sweepDown S.knots S.degree u last (S.points.getD (last + 1) [])
      ((S.points.drop (last + 1 - n)).take n).reverse, x.length = d := fun n =>
    sized_sweepDown (entry _ (by omega)) fun x hx =>
      sized x (List.mem_of_mem_drop (List.mem_of_mem_take (List.mem_reverse.1 hx)))
  intro x hx
  unfold unblend at hx
  dsimp only at hx
  split at hx
  · rcases List.mem_append.1 hx with hx | hx
    · exact up _ x hx
    · exact down _ x (List.mem_reverse.1 hx)
  · next odd =>
      rcases List.mem_append.1 hx with hx | hx
      · exact up _ x (List.mem_of_mem_dropLast hx)
      · rcases List.mem_cons.1 hx with rfl | hx
        · -- an odd number of points leaves a step for each sweep
          rw [Point.length_scale, Point.length_add,
              up _ _ (Sequence.getLastD_mem (List.ne_nil_of_length_pos ?_) []),
              down _ _ (Sequence.getLastD_mem (List.ne_nil_of_length_pos ?_) []), Nat.min_self]
          · rw [length_sweepDown, List.length_reverse, List.length_take, List.length_drop]
            omega
          · rw [length_sweepUp, List.length_take, List.length_drop]
            omega
        · exact down _ x (List.mem_of_mem_dropLast (List.mem_reverse.1 hx))

theorem sized_remove {r : Nat} (h : S.removable r = true) (sized : ∀ x ∈ S.points, x.length = d) :
    ∀ x ∈ (S.remove r).points, x.length = d := by
  simp only [removable, decide_eq_true_eq] at h
  exact Sequence.forall_mem_splice sized
    (sized_unblend (by omega) (by omega) (by omega) sized)

theorem knot_remove_of_lt {r i : Nat} (hi : i < r) :
    (S.remove r).knots.knot i = S.knots.knot i := by
  show (S.knots.values.eraseIdx r).getD i 0 = S.knots.values.getD i 0
  rw [List.getD_eq_getElem?_getD, List.getD_eq_getElem?_getD, List.getElem?_eraseIdx_of_lt hi]

theorem knot_remove_of_le {r i : Nat} (hi : r ≤ i) :
    (S.remove r).knots.knot i = S.knots.knot (i + 1) := by
  show (S.knots.values.eraseIdx r).getD i 0 = S.knots.values.getD (i + 1) 0
  rw [List.getD_eq_getElem?_getD, List.getD_eq_getElem?_getD, List.getElem?_eraseIdx_of_ge hi]

/-! ## §2. Several removals. -/

/-- `T` is `S` without `n` of its knots. -/
structure Without (S T : Spline α) (n : Nat) : Prop where
  /-- The degree stays. -/
  degree : T.degree = S.degree
  /-- The other knots stay. -/
  knots : T.knots.values.Sublist S.knots.values
  /-- So many knots are gone. -/
  size : T.knots.size + n = S.knots.size
  /-- So many control points are gone. -/
  length : T.points.length + n = S.points.length
  /-- The control vectors keep their size. -/
  sized : ∀ d, (∀ x ∈ S.points, x.length = d) → ∀ x ∈ T.points, x.length = d

/-- The indices of `n` knots from `low` on, the last one first. -/
def downFrom (low n : Nat) : List Nat := (List.range n).reverse.map (low + ·)

theorem downFrom_succ (low n : Nat) : downFrom low (n + 1) = (low + n) :: downFrom low n := by
  simp [downFrom, List.range_succ]

/-- **Removal takes the knots and as many control points.** -/
theorem without_removeEach {low n : Nat} (ok : Curve.removeEach S (downFrom low n) = some T) :
    Without S T n := by
  induction n generalizing S with
  | zero =>
      cases ok
      exact ⟨rfl, .refl _, rfl, rfl, fun d sized => sized⟩
  | succ n ih =>
      rw [downFrom_succ, Curve.removeEach] at ok
      obtain ⟨R, first, rest⟩ := Option.bind_eq_some_iff.1 ok
      unfold remove? at first
      split at first
      · next removable =>
          cases first
          have step := ih rest
          have size := size_knots_remove removable
          have length := length_points_remove removable
          have sized : ∀ d, (∀ x ∈ S.points, x.length = d) → _ := fun _ => sized_remove removable
          have bounds := removable
          simp only [Spline.removable, decide_eq_true_eq] at bounds
          have size' := step.size
          have length' := step.length
          exact ⟨step.degree, step.knots.trans (List.eraseIdx_sublist _ _), by omega, by omega,
            fun d all => step.sized d (sized d all)⟩
      · cases first

/-! ## §3. Which knots are left. -/

/-- The control points at the ends stay. -/
theorem ends_remove {r : Nat} (h : S.removable r = true) :
    (S.remove r).points.head? = S.points.head?
      ∧ (S.remove r).points.getLast? = S.points.getLast? := by
  simp only [removable, decide_eq_true_eq] at h
  constructor
  · rw [remove, List.append_assoc, List.head?_append, List.head?_take, if_neg (by omega)]
    cases points : S.points with
    | nil => simp [points] at h
    | cons x xs => rfl
  · rw [remove, List.getLast?_append, List.getLast?_drop, if_neg (by omega)]
    cases same : S.points.getLast? with
    | none => simp [List.getLast?_eq_none_iff.1 same] at h
    | some x => rfl

/-- The `n` knots behind the index `low` lie before the end of the domain. -/
structure Inner (S : Spline α) (low n : Nat) : Prop where
  /-- The knots do not decrease, but perhaps the first and the last. -/
  ordered : ∀ i j, 0 < i → i ≤ j → j + 1 < S.knots.size → S.knots.knot i ≤ S.knots.knot j
  /-- The degree is at least one. -/
  degree_pos : 0 < S.degree
  /-- The knot count fits. -/
  size_eq : S.knots.size = S.points.length + S.degree + 1
  /-- There are so many knots. -/
  lt_length : low + n < S.points.length
  /-- The domain goes on behind them. -/
  inside : ∀ i, low < i → i ≤ low + n → ¬S.knots.knot S.points.length ≤ S.knots.knot i

namespace Inner

variable [Scalar.Compares α] {low n : Nat}

/-- The last of a run of equal knots, where a removal of the last of the knots finds it. -/
theorem exists_last (h : S.Inner low (n + 1)) {r : Nat}
    (last : r = (Sequence.lastIndex? (· == S.knots.knot (low + n + 1)) S.knots.values).getD
      (low + n + 1)) (ok : S.removable r = true) :
    low + n + 1 ≤ r ∧ r < S.points.length
      ∧ ∀ j, low + n + 1 ≤ j → j ≤ r →
        (S.knots.knot j == S.knots.knot (low + n + 1)) = true := by
  have size := h.size_eq
  have degree := h.degree_pos
  have length := h.lt_length
  have self := h.ordered (low + n + 1) _ (by omega) le_rfl (by omega)
  obtain ⟨r', found, le⟩ : ∃ r', Sequence.lastIndex? (· == S.knots.knot (low + n + 1))
      S.knots.values = some r' ∧ low + n + 1 ≤ r' :=
    Sequence.exists_lastIndex? (S.knots.getElem?_values (by omega))
      (Scalar.Compares.beq_iff.2 ⟨self, self⟩)
  rw [found, Option.getD_some] at last
  subst last
  simp only [removable, decide_eq_true_eq] at ok
  obtain ⟨x, there, same⟩ := Sequence.getElem?_lastIndex? found
  obtain rfl : S.knots.knot r = x :=
    Option.some.inj ((S.knots.getElem?_values (Sequence.lastIndex?_lt found)).symm.trans there)
  have upTo := (Scalar.Compares.beq_iff.1 same).1
  refine ⟨le, ?_, fun j hj hj' => Scalar.Compares.beq_iff.2 ⟨?_, ?_⟩⟩
  · by_contra beyond
    exact h.inside (low + n + 1) (by omega) le_rfl
      (Scalar.Compares.le_trans (h.ordered _ r (by omega) (by omega) (by omega)) upTo)
  · exact Scalar.Compares.le_trans (h.ordered j r (by omega) hj' (by omega)) upTo
  · exact h.ordered _ j (by omega) hj (by omega)

omit [Scalar.Compares α] in
/-- **One removal leaves the others possible.** -/
theorem remove (h : S.Inner low (n + 1)) {r : Nat} (low_le : low + n + 1 ≤ r)
    (lt : r < S.points.length) (ok : S.removable r = true) : (S.remove r).Inner low n := by
  have size := size_knots_remove ok
  have length := length_points_remove ok
  have size' := h.size_eq
  have degree := h.degree_pos
  have shift : ∀ i, (S.remove r).knots.knot i
      = S.knots.knot (if i < r then i else i + 1) := fun i => by
    split
    · next before => exact knot_remove_of_lt before
    · next behind => exact knot_remove_of_le (not_lt.1 behind)
  refine ⟨fun i j pos le hj => ?_, degree, ?_, by omega, fun i hi hi' => ?_⟩
  · rw [shift, shift]
    split <;> split <;> exact h.ordered _ _ (by omega) (by omega) (by omega)
  · show _ = _ + S.degree + 1
    omega
  · rw [length, shift, shift, if_neg (by omega), if_pos (by omega), Nat.sub_add_cancel (by omega)]
    exact h.inside i hi (by omega)

/-- **The knots that are left equal those at the other indices**, and those up to the first index
and from the end of the domain on are those.  The control points at the ends stay. -/
theorem removeEach (h : S.Inner low n) (ok : Curve.removeEach S (downFrom low n) = some T) :
    (∀ i ≤ low, T.knots.knot i = S.knots.knot i)
      ∧ (∀ i, low < i → i + 1 < T.knots.size →
        (T.knots.knot i == S.knots.knot (i + n)) = true)
      ∧ (∀ i, T.points.length ≤ i → T.knots.knot i = S.knots.knot (i + n))
      ∧ T.points.head? = S.points.head? ∧ T.points.getLast? = S.points.getLast? := by
  induction n generalizing S with
  | zero =>
      cases ok
      refine ⟨fun _ _ => rfl, fun i hi size => ?_, fun _ _ => rfl, rfl, rfl⟩
      have self := h.ordered i i (by omega) le_rfl size
      exact Scalar.Compares.beq_iff.2 ⟨self, self⟩
  | succ n ih =>
      have without := without_removeEach ok
      rw [downFrom_succ, Curve.removeEach] at ok
      obtain ⟨R, first, rest⟩ := Option.bind_eq_some_iff.1 ok
      unfold remove? at first
      split at first
      · next removable =>
          cases first
          obtain ⟨le, lt, run⟩ := h.exists_last rfl removable
          obtain ⟨before, between, behind, head, last⟩ := ih (h.remove le lt removable) rest
          obtain ⟨head', last'⟩ := ends_remove removable
          have length := without.length
          refine ⟨fun i hi => ?_, fun i hi size => ?_, fun i hi => ?_, head.trans head',
            last.trans last'⟩
          · rw [before i hi, knot_remove_of_lt (by omega)]
          · have equal := between i hi size
            rcases Nat.lt_or_ge (i + n) _ with inside | out
            · -- both knots are of the run that loses its last one
              rw [knot_remove_of_lt inside] at equal
              have here := Scalar.Compares.beq_iff.1 (run (i + n) (by omega) inside.le)
              have next := Scalar.Compares.beq_iff.1 (run (i + n + 1) (by omega) inside)
              have back := Scalar.Compares.beq_iff.1 equal
              exact Scalar.Compares.beq_iff.2
                ⟨Scalar.Compares.le_trans back.1 (Scalar.Compares.le_trans here.1 next.2),
                  Scalar.Compares.le_trans next.1 (Scalar.Compares.le_trans here.2 back.2)⟩
            · rwa [knot_remove_of_le out] at equal
          · rw [behind i hi, knot_remove_of_le (by omega), Nat.add_assoc]
      · cases first

end Inner

end Spline

namespace Curve

open Spline (downFrom)

variable {α : Type} [Scalar α] [Precision α] {c e : Curve α}

/-! ## §4. Removal from a curve. -/

/-- **What removal gives.** -/
theorem of_removeKnots_eq_ok {index0 index1 : Nat} (ok : c.removeKnots index0 index1 = .ok e) :
    c.isValid = true ∧ c.order - 1 ≤ index0 ∧ index0 < index1 ∧ index1 ≤ c.pointCount - 1
      ∧ (∀ i, index0 ≤ i → i < index1 →
        ¬c.knots.knot i ≤ c.domain.1 ∧ ¬c.domain.2 ≤ c.knots.knot i)
      ∧ ∃ T, removeEach c.spline (downFrom index0 (index1 - index0)) = some T
        ∧ e = c.withSpline T := by
  unfold removeKnots at ok
  split_ifs at ok with low high
  split at ok
  · cases ok
  · next valid =>
      have valid' := validate_eq_ok_iff.1 valid
      obtain ⟨two, enough, count, degree⟩ := (arranged_of_isValid valid').counts
      dsimp only at ok
      split_ifs at ok with inner
      split at ok
      · next T some =>
          cases ok
          refine ⟨valid', by omega, by omega, by omega, fun i hi hi' => ?_, T, some, rfl⟩
          have size : i < c.knots.values.length := by
            show i < c.knots.size
            omega
          -- the check ran over the knots at these indices
          have member : c.knots.knot i ∈ (c.knots.values.drop index0).take (index1 - index0) := by
            rw [KnotVector.knot_eq_getElem _ size, ← List.drop_take]
            refine List.mem_drop_iff_getElem.2 ⟨i - index0, ?_, ?_⟩
            · rw [List.length_take]
              omega
            · rw [List.getElem_take]
              exact getElem_congr_idx (by omega)
          exact not_or.1 fun e => inner (List.any_eq_true.2 ⟨_, member, decide_eq_true e⟩)
      · cases ok

omit [Precision α] in
/-- Knots that an accepted removal takes lie before the end of the domain. -/
theorem Arranged.inner [Scalar.Compares α] (h : c.Arranged) {index0 index1 : Nat}
    (lt : index0 < index1) (high : index1 ≤ c.pointCount - 1)
    (inside : ∀ i, index0 ≤ i → i < index1 → ¬c.domain.2 ≤ c.knots.knot i) :
    c.spline.Inner index0 (index1 - index0) := by
  obtain ⟨two, enough, size, degree⟩ := h.counts
  have padded := c.size_knots_spline
  have knotCount : c.knotCount = c.knots.size := rfl
  have points : c.spline.points.length = c.pointCount := rfl
  have degree' : c.spline.degree = c.degree := rfl
  refine ⟨fun i j pos le hj => h.knot_spline_le pos le (by omega), by omega, by omega,
    by omega, fun i hi hi' => ?_⟩
  obtain ⟨i, rfl⟩ : ∃ k, i = k + 1 := ⟨i - 1, by omega⟩
  have before := inside i (by omega) (by omega)
  rwa [h.finish_eq, ← c.knots.knot_padded c.order (show i < c.knots.size by omega),
    ← c.knots.knot_padded c.order (show c.pointCount - 1 < c.knots.size by omega),
    show c.pointCount - 1 + 1 = c.spline.points.length by omega] at before

/-- **Removal takes the knots at the indices**, or others that equal them, and as many control
points.  The domain and the control points at its ends stay. -/
theorem removeKnots_keeps [Scalar.Compares α] {index0 index1 : Nat}
    (ok : c.removeKnots index0 index1 = .ok e) :
    List.Forall₂ (fun a b => (a == b) = true) e.knots.values
        (c.knots.values.take index0 ++ c.knots.values.drop index1)
      ∧ e.pointCount + (index1 - index0) = c.pointCount
      ∧ e.domain = c.domain
      ∧ e.points.vectors.head? = c.points.vectors.head?
      ∧ e.points.vectors.getLast? = c.points.vectors.getLast? := by
  obtain ⟨valid, low, lt, high, inner, T, some, rfl⟩ := of_removeKnots_eq_ok ok
  have h := arranged_of_isValid valid
  obtain ⟨two, enough, size, degree⟩ := h.counts
  have padded := c.size_knots_spline
  have knotCount : c.knotCount = c.knots.size := rfl
  have points : c.spline.points.length = c.pointCount := rfl
  have degree' : c.spline.degree = c.degree := rfl
  have knot : ∀ i < c.knots.size, c.spline.knots.knot (i + 1) = c.knots.knot i := fun i hi =>
    c.knots.knot_padded c.order hi
  have without := Spline.without_removeEach some
  have sizeT := without.size
  have lengthT := without.length
  have degreeT := without.degree
  obtain ⟨before, between, behind, head, last⟩ :=
    (h.inner lt high fun i hi hi' => (inner i hi hi').2).removeEach some
  have order : (c.withSpline T).order = c.order := by
    show T.degree + 1 = c.order
    omega
  have left : (c.withSpline T).knots.size = T.knots.size - 2 := KnotVector.size_unpadded _
  -- the padded knots are compared, which are those of the curve one place further on
  have knotT : ∀ i, i + 2 < T.knots.size → (c.withSpline T).knots.knot i = T.knots.knot (i + 1) :=
    fun i hi => KnotVector.knot_unpadded _ hi
  have vectors : (c.withSpline T).points.vectors = T.points := vectors_withSpline c T
  refine ⟨?_, ?_, Prod.ext ?_ ?_, vectors ▸ head, vectors ▸ last⟩
  · rw [show index1 = index0 + (index1 - index0) by omega]
    refine KnotVector.forall₂_dropped (by omega) (by omega) (fun i hi => ?_) fun i hi hi' => ?_
    · have self := h.knot_self (show i < c.knots.size by omega)
      rw [knotT i (by omega), before (i + 1) (by omega), knot i (by omega)]
      exact Scalar.Compares.beq_iff.2 ⟨self, self⟩
    · have equal := between (i + 1) (by omega) (by omega)
      rwa [Nat.add_right_comm, knot _ (by omega), ← knotT i (by omega)] at equal
  · rw [pointCount_withSpline]
    omega
  · show (c.withSpline T).knots.knot ((c.withSpline T).order - 2) = c.knots.knot (c.order - 2)
    rw [order, knotT _ (by omega), before _ (by omega), knot _ (by omega)]
  · show (c.withSpline T).knots.knot ((c.withSpline T).knots.size + 1 - (c.withSpline T).order)
      = c.domain.2
    rw [order, left, knotT _ (by omega), behind _ (by omega), h.finish_eq, ← knot _ (by omega)]
    exact congrArg _ (by omega)

end Curve

end RationalSpline
