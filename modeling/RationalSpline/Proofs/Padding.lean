/-
  RationalSpline.Proofs.Padding
  ─────────────────────────────
  THE KNOTS THAT PADDING ADDS HAVE NO INFLUENCE.

  Any two numbers that keep the order may stand before and behind the compact knots.
  Two such paddings agree on the indices from 1 to the number of compact knots, and
  what is computed on padded knots reads there only:

      span search      from  p          to  n + 1
      basis functions  from  i + 1 - p  to  i + p        on the span i
      insertion        from  k - p + 1  to  k + p        behind the knot k
      removal          from  r - p      to  r - s + p + 1

  where p is the degree, n the last control point, p ≤ i, k ≤ n, and r is the last of
  s equal knots.  Insertion and removal also test the outer knots themselves, against
  a value inside the domain, which they do not reach.

  Nothing of this needs more of the numbers than how they compare: the four laws of
  comparison that are assumed hold of exact numbers, and of floating point as well.
-/
import RationalSpline.Proofs.Arranged
import RationalSpline.Proofs.Insertion
import RationalSpline.KnotVector.BasisArray

namespace RationalSpline

/-- Loops over one list whose steps are the same at its entries. -/
theorem foldlM_congr {σ : Type} {f g : σ → Nat → Option σ} {l : List Nat}
    (same : ∀ s, ∀ k ∈ l, f s k = g s k) (s : σ) : l.foldlM f s = l.foldlM g s := by
  induction l generalizing s with
  | nil => rfl
  | cons k l ih =>
      rw [List.foldlM_cons, List.foldlM_cons, same s k List.mem_cons_self]
      exact bind_congr fun s => ih (fun s j hj => same s j (List.mem_cons_of_mem k hj)) s

namespace Sequence

variable {β : Type} {test : β → Bool} {l : List β}

/-- An entry behind a list that fails the test is not found. -/
theorem lastIndex?_concat {x : β} (fails : test x = false) :
    lastIndex? test (l ++ [x]) = lastIndex? test l := by
  induction l with
  | nil => simp [lastIndex?, fails]
  | cons y l ih => rw [List.cons_append, lastIndex?, ih, lastIndex?]

end Sequence

namespace KnotVector

variable {α : Type} [Scalar α]

/-! ## §1. Paddings. -/

/-- Two numbers that may stand before and behind the knots, in order. -/
structure Padding (U : KnotVector α) where
  /-- The number before the first knot. -/
  first : α
  /-- The number behind the last knot. -/
  last : α
  /-- It is not above the first knot. -/
  first_le : first ≤ U.knot 0
  /-- It is not below the last knot. -/
  le_last : U.knot (U.size - 1) ≤ last

namespace Padding

variable {U : KnotVector α}

/-- The padded knots. -/
def knots (P : U.Padding) : KnotVector α := ⟨P.first :: U.values ++ [P.last]⟩

@[simp] theorem size_knots (P : U.Padding) : P.knots.size = U.size + 2 := by
  simp [knots, size]

/-- The compact knots have moved up by one place. -/
theorem getElem?_knots (P : U.Padding) {i : Nat} (h : i < U.size) :
    P.knots.values[i + 1]? = U.values[i]? := by
  have inside : i < U.values.length := h
  simp [knots, List.getElem?_append_left inside]

/-- What stands between two parts of the padded knots stands between those of the compact knots. -/
theorem unpadded_splice (P : U.Padding) {k : Nat} (h : k ≤ U.size) (m : List α) :
    (⟨P.knots.values.take (k + 1) ++ m ++ P.knots.values.drop (k + 1)⟩ : KnotVector α).unpadded
      = ⟨U.values.take k ++ m ++ U.values.drop k⟩ := by
  have inside : k ≤ U.values.length := h
  have low : P.knots.values.take (k + 1) = P.first :: U.values.take k := by
    simp [knots, List.take_append_of_le_length inside]
  have high : P.knots.values.drop (k + 1) = U.values.drop k ++ [P.last] := by
    simp [knots, List.drop_append_of_le_length inside]
  rw [unpadded, low, high, List.cons_append, List.cons_append, List.tail_cons,
      ← List.append_assoc, List.dropLast_concat]

/-- The padded knots without one are the compact knots without it. -/
theorem unpadded_eraseIdx (P : U.Padding) {r : Nat} (h : r < U.size) :
    (⟨P.knots.values.eraseIdx (r + 1)⟩ : KnotVector α).unpadded = ⟨U.values.eraseIdx r⟩ := by
  have inside : r < U.values.length := h
  have erased : P.knots.values.eraseIdx (r + 1) = P.first :: U.values.eraseIdx r ++ [P.last] := by
    rw [knots, List.cons_append, List.eraseIdx_cons_succ, List.eraseIdx_append_of_lt_length inside]
    rfl
  rw [unpadded, erased, List.cons_append, List.tail_cons, List.dropLast_concat]

@[simp] theorem unpadded_knots (P : U.Padding) : P.knots.unpadded = U := by
  rw [unpadded, knots, List.cons_append, List.tail_cons, List.dropLast_concat]

end Padding

/-! ## §2. Agreement. -/

/-- The two vectors have the same knots from one index to another. -/
def AgreeOn (U V : KnotVector α) (low high : Nat) : Prop :=
  ∀ i, low ≤ i → i ≤ high → U.values[i]? = V.values[i]?

omit [Scalar α] in
theorem AgreeOn.mono {U V : KnotVector α} {low high low' high' : Nat} (h : U.AgreeOn V low high)
    (hlow : low ≤ low') (hhigh : high' ≤ high) : U.AgreeOn V low' high' :=
  fun i hi hi' => h i (hlow.trans hi) (hi'.trans hhigh)

theorem AgreeOn.knot_eq {U V : KnotVector α} {low high i : Nat} (h : U.AgreeOn V low high)
    (hi : low ≤ i) (hi' : i ≤ high) : U.knot i = V.knot i := by
  rw [knot, knot, List.getD_eq_getElem?_getD, List.getD_eq_getElem?_getD, h i hi hi']

/-- **Two paddings differ at the two ends only.** -/
theorem Padding.agreeOn {U : KnotVector α} (P Q : U.Padding) :
    P.knots.AgreeOn Q.knots 1 U.size := by
  intro i hi hi'
  obtain ⟨i, rfl⟩ : ∃ j, i = j + 1 := ⟨i - 1, by omega⟩
  rw [P.getElem?_knots (by omega), Q.getElem?_knots (by omega)]

variable {U V : KnotVector α} {i p : Nat} {u : α}

/-! ## §3. Reading knots: search and basis functions. -/

/-- Bisection reads from its lower bound to its upper one. -/
theorem bisect?_congr (u : α) {low high : Nat} (h : U.AgreeOn V low high) (lt : low < high) :
    U.bisect? u low high = V.bisect? u low high := by
  rw [bisect?_eq_bind U u low high, bisect?_eq_bind V u low high, h _ (by omega) (by omega),
      h _ (by omega) (by omega)]
  refine Option.bind_congr fun k _ => ?_
  split
  · split
    · rfl
    · -- the midpoint moves on, so it is still above the lower bound
      exact bisect?_congr u (h.mono (le_refl _) (by omega)) (by omega)
  · refine Option.bind_congr fun k' _ => ?_
    split
    · split
      · rfl
      · exact bisect?_congr u (h.mono (by omega) (le_refl _)) (by omega)
    · rfl
termination_by high - low
decreasing_by all_goals omega

/-- The search for a span reads from the start of the domain to its end. -/
theorem span?_congr [Precision α] (u : α) {n : Nat} (h : U.AgreeOn V p (n + 1)) (lt : p ≤ n) :
    U.span? n p u = V.span? n p u := by
  unfold span?
  refine Option.bind_congr fun m hm => ?_
  have := Word.of_unsigned?_eq_some hm
  rw [h m (by omega) (by omega), h p (by omega) (by omega), bisect?_congr u h (by omega)]

omit [Scalar α] in
/-- A step of degree `j` around a span reads one knot below it and one above; what it does
with the two is left open. -/
theorem around_congr {β γ : Type} {j : Nat} (h : U.AgreeOn V (i + 1 - p) (i + p))
    (low : 1 ≤ j) (high : j ≤ p) (fits : p ≤ i) (first : α → Option β)
    (rest : β → α → Option γ) :
    (do let next ← Word.unsigned? (i + 1)
        let x ← first (← U.values[← Word.unsigned? (next - j)]?)
        rest x (← U.values[← Word.unsigned? (i + j)]?))
      = (do let next ← Word.unsigned? (i + 1)
            let x ← first (← V.values[← Word.unsigned? (next - j)]?)
            rest x (← V.values[← Word.unsigned? (i + j)]?)) := by
  refine Option.bind_congr fun next hnext => Option.bind_congr fun m hm => ?_
  have behind := Word.of_unsigned?_eq_some hnext
  have below := Word.of_unsigned?_eq_some hm
  rw [h m (by omega) (by omega)]
  refine Option.bind_congr fun _ _ => Option.bind_congr fun _ _ =>
    Option.bind_congr fun m' hm' => ?_
  have above := Word.of_unsigned?_eq_some hm'
  rw [h m' (by omega) (by omega)]

/-- Basis functions read as many knots on either side of the span as their degree. -/
theorem basisInPlace?_congr (u : α) (h : U.AgreeOn V (i + 1 - p) (i + p)) (fits : p ≤ i) :
    U.basisInPlace? i p u = V.basisInPlace? i p u := by
  have steps : ∀ B, (List.range' 1 p).foldlM (BasisArray.addDegree? U i u) B
      = (List.range' 1 p).foldlM (BasisArray.addDegree? V i u) B :=
    foldlM_congr fun B j hj => by
      have := List.mem_range'_1.1 hj
      exact around_congr h (by omega) (by omega) fits _ _
  unfold basisInPlace?
  simp only [steps]

/-- So do their derivatives, whatever holds the factors. -/
theorem derivativeRowsIn?_congr (word : Int → Option Int) (u : α) (count : Nat)
    (h : U.AgreeOn V (i + 1 - p) (i + p)) (fits : p ≤ i) :
    U.derivativeRowsIn? word i p u count = V.derivativeRowsIn? word i p u count := by
  have steps : ∀ T, (List.range' 1 p).foldlM (Triangle.addColumn? U i u) T
      = (List.range' 1 p).foldlM (Triangle.addColumn? V i u) T :=
    foldlM_congr fun T j hj => by
      have := List.mem_range'_1.1 hj
      exact around_congr h (by omega) (by omega) fits _ _
  have triangles : U.triangle? i p u = V.triangle? i p u := by
    unfold triangle?
    simp only [steps]
  rw [derivativeRowsIn?, derivativeRowsIn?, triangles]

/-! ## §4. Tests of the outer knots. -/

/-- **Every vector in order is a padding of what is inside it.** -/
theorem exists_padding (h : U.isNonDecreasing = true) (inner : 3 ≤ U.size) :
    ∃ P : U.unpadded.Padding, P.knots = U := by
  obtain ⟨values⟩ := U
  match values, inner with
  | a :: x :: rest, inner =>
      obtain ⟨l, b, same⟩ : ∃ l b, x :: rest = l ++ [b] :=
        ⟨_, _, (List.dropLast_concat_getLast (List.cons_ne_nil x rest)).symm⟩
      rw [same] at h inner ⊢
      have inside : (⟨a :: (l ++ [b])⟩ : KnotVector α).unpadded = ⟨l⟩ := by simp [unpadded]
      have size : (⟨a :: (l ++ [b])⟩ : KnotVector α).size = l.length + 2 := by
        simp [KnotVector.size]
      have some : 0 < l.length := by omega
      -- the knots inside have moved up by one place
      have moved : ∀ i < l.length,
          (⟨a :: (l ++ [b])⟩ : KnotVector α).knot (i + 1) = (⟨l⟩ : KnotVector α).knot i :=
        fun i hi => by simp [knot, List.getElem?_append_left hi]
      have first := knot_le_succ h (m := 0) (by omega)
      have last := knot_le_succ h (m := l.length - 1 + 1) (by omega)
      rw [moved 0 some] at first
      rw [moved (l.length - 1) (by omega),
          show l.length - 1 + 1 + 1 = l.length + 1 by omega] at last
      rw [inside]
      exact ⟨⟨a, b, first, by simpa [knot, KnotVector.size] using last⟩, rfl⟩

section Compares

variable [Scalar.Compares α]

/-- A number above the first knot is not the one before it. -/
theorem Padding.first_beq (P : U.Padding) (above : ¬u ≤ U.knot 0) : (P.first == u) = false :=
  Bool.eq_false_iff.2 fun same =>
    above (Scalar.Compares.le_trans (Scalar.Compares.beq_iff.1 same).2 P.first_le)

/-- A number that some knot exceeds is exceeded by the one behind the last. -/
theorem Padding.not_last_le (P : U.Padding) (ordered : U.isNonDecreasing = true)
    (two : 2 ≤ U.size) (hi : i < U.size) (below : ¬U.knot i ≤ u) : ¬P.last ≤ u := fun le =>
  below (Scalar.Compares.le_trans
    (knot_le_of_isNonDecreasing ordered two (show i ≤ U.size - 1 by omega) (by omega))
    (Scalar.Compares.le_trans P.le_last le))

/-- Neither of the added knots counts at a number between the outermost knots. -/
theorem Padding.count_knots (P : U.Padding) (above : ¬u ≤ U.knot 0) (below : ¬P.last ≤ u) :
    P.knots.count u = U.count u := by
  have last : (P.last == u) = false :=
    Bool.eq_false_iff.2 fun same => below (Scalar.Compares.beq_iff.1 same).1
  simp [count, knots, P.first_beq above, last]

end Compares

/-- The last knot not above a number moves up by one place with the others. -/
theorem floor?_cons_concat {first last : α} (below : ¬last ≤ u) {k : Nat}
    (found : U.floor? u = some k) :
    (⟨first :: U.values ++ [last]⟩ : KnotVector α).floor? u = some (k + 1) := by
  have back : Sequence.lastIndex? (fun k => decide (k ≤ u)) (U.values ++ [last])
      = U.floor? u := Sequence.lastIndex?_concat (decide_eq_false below)
  rw [floor?, List.cons_append, Sequence.lastIndex?, back, found]

end KnotVector

namespace Spline

open KnotVector

variable {α : Type} [Scalar α] {U V : KnotVector α} {p : Nat} {u : α}

/-! ## §5. Reading knots: insertion and removal. -/

/-- What a curve keeps of a spline: the knots without the outermost two, and the points. -/
def compact (S : Spline α) : KnotVector α × List (Point α) := (S.knots.unpadded, S.points)

/-- A triangle of rounds reads the knots of its first round. -/
theorem triangle_congr {v : α} {lo hi times : Nat} {row : List (Point α)}
    (same : ∀ i, i + 1 < row.length →
      U.knot (lo + i) = V.knot (lo + i) ∧ U.knot (hi + i) = V.knot (hi + i)) :
    triangle U v hi lo times row = triangle V v hi lo times row := by
  induction times generalizing lo row with
  | zero => rfl
  | succ times ih =>
      have next : ∀ i, i + 1 < (round V v lo hi row).length →
          U.knot (lo + 1 + i) = V.knot (lo + 1 + i) ∧ U.knot (hi + i) = V.knot (hi + i) := by
        intro i hi'
        rw [length_round] at hi'
        rw [show lo + 1 + i = lo + (i + 1) by omega]
        exact ⟨(same (i + 1) (by omega)).1, (same i (by omega)).2⟩
      rw [triangle, triangle, round_congr v same, ih next]

/-- Solving upwards reads the knots where it solves, and those an order behind them. -/
theorem sweepUp_congr {i low high : Nat} {before : Point α} {points : List (Point α)}
    (h : U.AgreeOn V low high) (first : low ≤ i) (last : i + points.length + p ≤ high) :
    sweepUp U p u i before points = sweepUp V p u i before points := by
  induction points generalizing i before with
  | nil => rfl
  | cons q qs ih =>
      rw [List.length_cons] at last
      have here : ratio U p u i = ratio V p u i := by
        rw [ratio, ratio, h.knot_eq first (by omega), h.knot_eq (by omega) (by omega)]
      simp only [sweepUp, here]
      rw [ih (by omega) (by omega)]

/-- So does solving downwards. -/
theorem sweepDown_congr {j low high : Nat} {after : Point α} {points : List (Point α)}
    (h : U.AgreeOn V low high) (first : low + points.length ≤ j + 1) (last : j + p + 1 ≤ high) :
    sweepDown U p u j after points = sweepDown V p u j after points := by
  induction points generalizing j after with
  | nil => rfl
  | cons q qs ih =>
      rw [List.length_cons] at first
      have here : ratio U p u j = ratio V p u j := by
        rw [ratio, ratio, h.knot_eq (by omega) (by omega), h.knot_eq (by omega) (by omega)]
      simp only [sweepDown, here]
      rcases Nat.eq_zero_or_pos j with rfl | pos
      · obtain rfl : qs = [] := List.eq_nil_of_length_eq_zero (by omega)
        rfl
      · rw [ih (by omega) (by omega)]

/-- Both sweeps stay between the first and the last affected point. -/
theorem unblend_congr {points : List (Point α)} {first last : Nat}
    (h : U.AgreeOn V first (last + p + 1)) (le : first ≤ last) :
    unblend ⟨p, U, points⟩ u first last = unblend ⟨p, V, points⟩ u first last := by
  have up : ∀ before, sweepUp U p u first before
        ((points.drop first).take ((last - first + 1) / 2))
      = sweepUp V p u first before ((points.drop first).take ((last - first + 1) / 2)) :=
    fun before => sweepUp_congr h (le_refl _) (by rw [List.length_take]; omega)
  have down : ∀ after, sweepDown U p u last after
        ((points.drop (last + 1 - (last - first + 1) / 2)).take ((last - first + 1) / 2)).reverse
      = sweepDown V p u last after
        ((points.drop (last + 1 - (last - first + 1) / 2)).take
          ((last - first + 1) / 2)).reverse := fun after =>
    sweepDown_congr h (by rw [List.length_reverse, List.length_take]; omega) (le_refl _)
  simp only [unblend, up, down]

/-- Insertion behind one place, next to equally many copies, gives the same on all paddings. -/
theorem compact_insertCopies {W : KnotVector α} (P Q : W.Padding) {points : List (Point α)}
    {k times : Nat} (place : (⟨p, P.knots, points⟩ : Spline α).place u = k + 1)
    (place' : (⟨p, Q.knots, points⟩ : Spline α).place u = k + 1)
    (count : P.knots.count u = Q.knots.count u) (inside : k + 1 + p ≤ W.size) :
    (insertCopies ⟨p, P.knots, points⟩ u times).compact
      = (insertCopies ⟨p, Q.knots, points⟩ u times).compact := by
  have agree := P.agreeOn Q
  have splice : ∀ R : W.Padding, (⟨R.knots.values.take (k + 1 + 1) ++ List.replicate times u
      ++ R.knots.values.drop (k + 1 + 1)⟩ : KnotVector α).unpadded
        = ⟨W.values.take (k + 1) ++ List.replicate times u ++ W.values.drop (k + 1)⟩ := fun R =>
    R.unpadded_splice (by omega) _
  have rounds : triangle P.knots u (k + 1 + 1) (k + 1 - p + 1) times
        ((points.drop (k + 1 - p)).take (p - Q.knots.count u + 1))
      = triangle Q.knots u (k + 1 + 1) (k + 1 - p + 1) times
        ((points.drop (k + 1 - p)).take (p - Q.knots.count u + 1)) :=
    triangle_congr fun i hi => by
      rw [List.length_take] at hi
      exact ⟨agree.knot_eq (by omega) (by omega), agree.knot_eq (by omega) (by omega)⟩
  refine Prod.ext ?_ ?_
  · simp only [compact, insertCopies, place, place', splice]
  · simp only [compact, insertCopies, place, place', count, rounds]

/-- Removal of a knot next to equally many copies gives the same on all paddings. -/
theorem remove?_padding {W : KnotVector α} (P Q : W.Padding) {points : List (Point α)} {r : Nat}
    (hr : r < W.size) (count : P.knots.count (W.knot r) = Q.knots.count (W.knot r))
    (size : W.size = points.length + p - 1) :
    ((⟨p, P.knots, points⟩ : Spline α).remove? (r + 1)).map compact
      = ((⟨p, Q.knots, points⟩ : Spline α).remove? (r + 1)).map compact := by
  have agree := P.agreeOn Q
  have removed : ∀ R : W.Padding, R.knots.knot (r + 1) = W.knot r := fun R => by
    rw [knot, knot, List.getD_eq_getElem?_getD, List.getD_eq_getElem?_getD, R.getElem?_knots hr]
  have erased : ∀ R : W.Padding, (⟨R.knots.values.eraseIdx (r + 1)⟩ : KnotVector α).unpadded
      = ⟨W.values.eraseIdx r⟩ := fun R => R.unpadded_eraseIdx hr
  have test : (⟨p, P.knots, points⟩ : Spline α).removable (r + 1)
      = (⟨p, Q.knots, points⟩ : Spline α).removable (r + 1) := by
    simp only [removable, removed, count, Padding.size_knots]
  by_cases can : (⟨p, Q.knots, points⟩ : Spline α).removable (r + 1) = true
  · have bounds := can
    simp only [removable, removed, decide_eq_true_eq] at bounds
    have between : unblend ⟨p, P.knots, points⟩ (W.knot r) (r + 1 - p)
          (r + 1 - Q.knots.count (W.knot r))
        = unblend ⟨p, Q.knots, points⟩ (W.knot r) (r + 1 - p)
          (r + 1 - Q.knots.count (W.knot r)) :=
      unblend_congr (agree.mono (by omega) (by omega)) (by omega)
    rw [remove?, remove?, if_pos (test.trans can), if_pos can, Option.map_some, Option.map_some]
    refine congrArg some (Prod.ext ?_ ?_)
    · simp only [compact, remove, erased]
    · simp only [compact, remove, removed, count, between]
  · rw [remove?, remove?, if_neg (test ▸ can), if_neg can]

end Spline

namespace Curve

open KnotVector

variable {α : Type} [Scalar α] {c e : Curve α} {u : α}

/-! ## §6. The splines of a curve. -/

/-- The control points of a curve on padded knots of any kind. -/
def splineOn (c : Curve α) (W : KnotVector α) : Spline α := ⟨c.degree, W, c.points.vectors⟩

/-- A number of the domain that is neither its end nor the very first knot. -/
structure Between (c : Curve α) (u : α) : Prop where
  /-- The domain has begun. -/
  start_le : c.domain.1 ≤ u
  /-- The first knot is passed. -/
  first_lt : ¬u ≤ c.knots.knot 0
  /-- The domain goes on. -/
  lt_finish : ¬c.domain.2 ≤ u

namespace Arranged

variable (h : c.Arranged)

include h

variable [Scalar.Compares α]

/-- The knot behind which a number of the domain is inserted. -/
theorem exists_floor? (between : c.Between u) :
    ∃ k, c.knots.floor? u = some k ∧ c.degree ≤ k + 1 ∧ k + 1 < c.pointCount := by
  obtain ⟨two, enough, size, degree⟩ := h.counts
  have start : c.knots.values[c.order - 2]? = some c.domain.1 :=
    c.knots.getElem?_values (by omega)
  obtain ⟨k, found, le⟩ : ∃ k, c.knots.floor? u = some k ∧ c.order - 2 ≤ k :=
    Sequence.exists_lastIndex? start (decide_eq_true between.start_le)
  refine ⟨k, found, by omega, ?_⟩
  by_contra beyond
  have size : k < c.knots.size := Sequence.lastIndex?_lt found
  obtain ⟨x, there, passes⟩ := Sequence.getElem?_lastIndex? found
  obtain rfl : c.knots.knot k = x :=
    Option.some.inj ((c.knots.getElem?_values size).symm.trans there)
  have below : c.knots.knot k ≤ u := of_decide_eq_true passes
  exact between.lt_finish (h.finish_eq ▸ Scalar.Compares.le_trans
    (h.knot_le (show c.pointCount - 1 ≤ k by omega) size) below)

/-- No padding reaches a number of the domain from behind. -/
theorem not_last_le (between : c.Between u) (P : c.knots.Padding) : ¬P.last ≤ u := by
  obtain ⟨two, enough, size, degree⟩ := h.counts
  exact P.not_last_le h.ordered (by omega) (show c.pointCount - 1 < c.knots.size by omega)
    (h.finish_eq ▸ between.lt_finish)

theorem count_knots (between : c.Between u) (P : c.knots.Padding) :
    P.knots.count u = c.knots.count u :=
  P.count_knots between.first_lt (h.not_last_le between P)

/-- As many copies as the degree has room for can be inserted, and which padding is used does
not matter. -/
theorem insertTimes?_padding (between : c.Between u) {times : Nat}
    (room : 0 < times → c.knots.count u + times ≤ c.degree) (P Q : c.knots.Padding) :
    ∃ S T, (c.splineOn P.knots).insertTimes? u times = some S
      ∧ (c.splineOn Q.knots).insertTimes? u times = some T ∧ S.compact = T.compact := by
  obtain ⟨two, enough, size, degree⟩ := h.counts
  have length : c.points.vectors.length = c.pointCount := rfl
  obtain ⟨k, found, low, high⟩ := h.exists_floor? between
  have count := h.count_knots between
  have place : ∀ R : c.knots.Padding, (c.splineOn R.knots).place u = k + 1 := fun R => by
    have behind : R.knots.floor? u = some (k + 1) :=
      floor?_cons_concat (h.not_last_le between R) found
    rw [Spline.place, splineOn, behind, Option.getD_some]
  rcases Nat.eq_zero_or_pos times with rfl | pos
  · exact ⟨_, _, if_pos rfl, if_pos rfl, by simp [Spline.compact, splineOn]⟩
  · have full := room pos
    have inserted : ∀ R : c.knots.Padding, (c.splineOn R.knots).insertTimes? u times
        = some ((c.splineOn R.knots).insertCopies u times) := fun R => by
      rw [Spline.insertTimes?, if_neg pos.ne', if_pos]
      rw [Spline.admits, place]
      refine decide_eq_true ?_
      show c.degree ≤ k + 1 ∧ R.knots.count u ≤ k + 1
        ∧ k + 1 - R.knots.count u < c.points.vectors.length ∧ R.knots.count u + times ≤ c.degree
      rw [count]
      omega
    exact ⟨_, _, inserted P, inserted Q, Spline.compact_insertCopies P Q (place P) (place Q)
      ((count P).trans (count Q).symm) (by omega)⟩

/-- A knot inside the domain is removed the same way on all paddings. -/
theorem remove?_padding {r : Nat} (hr : r < c.knots.size) (between : c.Between (c.knots.knot r))
    (P Q : c.knots.Padding) :
    ((c.splineOn P.knots).remove? (r + 1)).map Spline.compact
      = ((c.splineOn Q.knots).remove? (r + 1)).map Spline.compact := by
  obtain ⟨two, enough, size, degree⟩ := h.counts
  have length : c.points.vectors.length = c.pointCount := rfl
  exact Spline.remove?_padding P Q hr
    ((h.count_knots between P).trans (h.count_knots between Q).symm) (by omega)

/-- It can be removed, unless it has more copies than the degree. -/
theorem isSome_remove? {r : Nat} (hr : r < c.knots.size) (start : c.domain.1 < c.knots.knot r)
    (between : c.Between (c.knots.knot r)) (room : c.knots.count (c.knots.knot r) ≤ c.degree)
    (P : c.knots.Padding) : ((c.splineOn P.knots).remove? (r + 1)).isSome = true := by
  obtain ⟨two, enough, size, degree⟩ := h.counts
  have length : c.points.vectors.length = c.pointCount := rfl
  have removed : P.knots.knot (r + 1) = c.knots.knot r := by
    rw [knot, knot, List.getD_eq_getElem?_getD, List.getD_eq_getElem?_getD, P.getElem?_knots hr]
  have copies : 1 ≤ c.knots.count (c.knots.knot r) :=
    le_count_of_beq (i := r) hr fun m hm => by
      obtain rfl : m = 0 := by omega
      have self := h.knot_le (le_refl r) hr
      exact Scalar.Compares.beq_iff.2 ⟨self, self⟩
  have low : c.order - 2 < r := by
    by_contra before
    exact (Scalar.Compares.lt_iff.1 start).2 (h.knot_le (show r ≤ c.order - 2 by omega) (by omega))
  have high : r < c.pointCount - 1 := by
    by_contra behind
    exact between.lt_finish (h.finish_eq ▸ h.knot_le (show c.pointCount - 1 ≤ r by omega) hr)
  rw [Spline.remove?, if_pos]
  · rfl
  · refine decide_eq_true ?_
    show c.degree < r + 1 ∧ r + 1 < P.knots.size ∧ P.knots.count (P.knots.knot (r + 1)) ≤ c.degree
      ∧ r + 1 - P.knots.count (P.knots.knot (r + 1)) + 1 < c.points.vectors.length
    rw [removed, h.count_knots between P, P.size_knots]
    omega

/-- A knot inside the domain is behind the first. -/
theorem between_knot (start : c.domain.1 < u) (finish : u < c.domain.2) : c.Between u := by
  obtain ⟨two, enough, size, degree⟩ := h.counts
  obtain ⟨le, lt⟩ := Scalar.Compares.lt_iff.1 start
  have first : c.knots.knot 0 ≤ c.domain.1 := h.knot_le (Nat.zero_le _) (by omega)
  exact ⟨le, fun before => lt (Scalar.Compares.le_trans before first),
    (Scalar.Compares.lt_iff.1 finish).2⟩

/-- A knot of the closed domain that the degree has room for lies inside, or at an end that is not
clamped. -/
theorem inside_of_room {m : Nat} (pos : 0 < m) (closed : c.domain.1 ≤ u ∧ u ≤ c.domain.2)
    (room : c.knots.count u + m ≤ c.degree)
    (start : (u == c.domain.1) = true → c.isClamped .start = true)
    (finish : (u == c.domain.2) = true → c.isClamped .finish = true) :
    c.domain.1 < u ∧ u < c.domain.2 := by
  obtain ⟨two, enough, size, degree⟩ := h.counts
  -- as many knots as the degree may not equal the new one
  have few : ∀ i, i + c.degree ≤ c.knots.size →
      ¬∀ r < c.degree, u ≤ c.knots.knot (i + r) ∧ c.knots.knot (i + r) ≤ u := by
    intro i inside same
    have copies := le_count_of_beq inside fun r hr =>
      Scalar.Compares.beq_iff.2 ⟨(same r hr).2, (same r hr).1⟩
    omega
  refine ⟨Scalar.Compares.lt_iff.2 ⟨closed.1, fun first => ?_⟩,
    Scalar.Compares.lt_iff.2 ⟨closed.2, fun last => ?_⟩⟩
  · have outer : c.domain.1 ≤ c.knots.knot 0 :=
      (Scalar.Compares.beq_iff.1 (start (Scalar.Compares.beq_iff.2 ⟨first, closed.1⟩))).2
    refine few 0 (by omega) fun r hr => ⟨?_, ?_⟩
    · exact Scalar.Compares.le_trans first
        (Scalar.Compares.le_trans outer (h.knot_le (Nat.zero_le _) (by omega)))
    · exact Scalar.Compares.le_trans
        (h.knot_le (show 0 + r ≤ c.order - 2 by omega) (by omega)) closed.1
  · have outer : c.knots.knot (c.knots.size - 1) ≤ c.domain.2 :=
      (Scalar.Compares.beq_iff.1 (finish (Scalar.Compares.beq_iff.2 ⟨closed.2, last⟩))).1
    refine few (c.pointCount - 1) (by omega) fun r hr => ⟨?_, ?_⟩
    · exact Scalar.Compares.le_trans (h.finish_eq ▸ closed.2) (h.knot_le (by omega) (by omega))
    · have reach : c.pointCount - 1 + r ≤ c.knots.size - 1 := by omega
      exact Scalar.Compares.le_trans (h.knot_le reach (by omega))
        (Scalar.Compares.le_trans outer last)

/-- What can be inserted lies inside the domain, and the degree has room for it. -/
theorem inside_of_insertKnot {m : Nat} (ok : c.insertKnot u m = .ok e) :
    c.domain.1 < u ∧ u < c.domain.2 ∧ c.knots.count u + m ≤ c.degree := by
  unfold insertKnot at ok
  dsimp only at ok
  split_ifs at ok with none outside limit full open_
  simp only [Bool.or_eq_true, Bool.and_eq_true, Bool.not_eq_true', not_or, not_and,
    Bool.not_eq_false] at open_
  obtain ⟨start, finish⟩ := h.inside_of_room (Nat.pos_of_ne_zero none) outside (not_lt.1 full)
    open_.1 open_.2
  exact ⟨start, finish, not_lt.1 full⟩

/-- The start of the domain is behind the first knot of an unclamped start. -/
theorem between_start (unclamped : c.isClamped .start = false) : c.Between c.domain.1 := by
  obtain ⟨two, enough, size, degree⟩ := h.counts
  refine ⟨h.knot_le (le_refl _) (by omega), fun first => ?_, fun last => h.first_span ?_⟩
  · exact Bool.eq_false_iff.1 unclamped
      (Scalar.Compares.beq_iff.2 ⟨h.knot_le (Nat.zero_le _) (by omega), first⟩)
  · exact Scalar.Compares.le_trans (h.knot_le (show c.order - 1 ≤ c.pointCount - 1 by omega)
      (by omega)) (h.finish_eq ▸ last)

end Arranged

/-- Over exact numbers, what a curve invents for its ends is a padding. -/
theorem Sound.exists_own_padding {K : Type} [Field K] [LinearOrder K] [IsStrictOrderedRing K]
    {c : Curve K} (h : c.Sound) : ∃ P : c.knots.Padding, c.splineOn P.knots = c.spline :=
  ⟨⟨c.knots.superfluous c.order .start, c.knots.superfluous c.order .finish,
    h.ordered.superfluous_start_le c.order, h.ordered.le_superfluous_finish c.order⟩, rfl⟩

variable [Scalar.Compares α] [Precision α]

/-- **The knots that padding adds have no influence.**

For any two paddings of the knots of a valid curve, the span search agrees at every parameter and
ends on a span with a full window of control points.  On every such span the basis functions and
the tables of their derivatives agree, whatever holds the factors.  The insertions that the curve
accepts and the one that clamps an open start are defined on both, with the same control vectors
and the same compact knots.  So are removals of knots inside the domain.

An open end needs nothing more of its padding: its outermost knot is outside the domain already. -/
theorem padding_has_no_influence (valid : c.isValid = true) (P Q : c.knots.Padding) :
    (∀ t, P.knots.span? (c.pointCount - 1) c.degree t = Q.knots.span? (c.pointCount - 1) c.degree t
        ∧ (c.knotCount + 2 ≤ countLimit → ∃ i, c.degree ≤ i ∧ i < c.pointCount
          ∧ P.knots.span? (c.pointCount - 1) c.degree t = some i))
      ∧ (∀ t i, c.degree ≤ i → i < c.pointCount →
        P.knots.basisInPlace? i c.degree t = Q.knots.basisInPlace? i c.degree t
          ∧ ∀ word count, P.knots.derivativeRowsIn? word i c.degree t count
            = Q.knots.derivativeRowsIn? word i c.degree t count)
      ∧ (∀ u m e, c.insertKnot u m = .ok e →
        ∃ S T, (c.splineOn P.knots).insertTimes? u m = some S
          ∧ (c.splineOn Q.knots).insertTimes? u m = some T ∧ S.compact = T.compact)
      ∧ (c.isClamped .start = false →
        ∃ S T, (c.splineOn P.knots).insertTimes? c.domain.1
            (c.degree - c.knots.count c.domain.1) = some S
          ∧ (c.splineOn Q.knots).insertTimes? c.domain.1
            (c.degree - c.knots.count c.domain.1) = some T ∧ S.compact = T.compact)
      ∧ ∀ r < c.knotCount, c.domain.1 < c.knots.knot r → c.knots.knot r < c.domain.2 →
        ((c.splineOn P.knots).remove? (r + 1)).map Spline.compact
            = ((c.splineOn Q.knots).remove? (r + 1)).map Spline.compact
          ∧ (c.knots.count (c.knots.knot r) ≤ c.degree →
            ((c.splineOn P.knots).remove? (r + 1)).isSome = true) := by
  have arranged := arranged_of_isValid valid
  have two := arranged.two_le_order
  have enough := arranged.order_le
  have size := arranged.knotCount_eq
  have degree : c.degree = c.order - 1 := rfl
  have agree := P.agreeOn Q
  refine ⟨fun t => ⟨span?_congr t (agree.mono (by omega) (by omega)) (by omega), fun words => ?_⟩,
    fun t i low high => ?_, fun u m e ok => ?_, fun unclamped => ?_, fun r hr start finish => ?_⟩
  · have count : c.knotCount = c.knots.size := rfl
    have padded := P.size_knots
    refine ⟨P.knots.span (c.pointCount - 1) c.degree t, ?_, ?_, ?_⟩
    · exact (P.knots.span_bounds t (by omega)).1
    · have le := P.knots.span_le (n := c.pointCount - 1) (p := c.degree) t (by omega)
      omega
    · exact span?_eq t ⟨by omega, by omega, by omega⟩ (by omega)
  · have around : P.knots.AgreeOn Q.knots (i + 1 - c.degree) (i + c.degree) :=
      agree.mono (by omega) (by omega)
    exact ⟨basisInPlace?_congr t around low,
      fun word count => derivativeRowsIn?_congr word t count around low⟩
  · obtain ⟨start, finish, room⟩ := arranged.inside_of_insertKnot ok
    exact arranged.insertTimes?_padding (arranged.between_knot start finish) (fun _ => room) P Q
  · exact arranged.insertTimes?_padding (arranged.between_start unclamped) (fun pos => by omega) P Q
  · have between := arranged.between_knot start finish
    exact ⟨arranged.remove?_padding hr between P Q,
      fun room => arranged.isSome_remove? hr start between room P⟩

/-- A curve with an open start, on its own padding and on one that reaches far out. -/
theorem padding_openStart :
    openStart.isValid = true ∧ openStart.isClamped .start = false
      ∧ (∃ S T, openStart.spline.insertTimes? 1 1 = some S
        ∧ (openStart.splineOn ⟨[-7, 0, 1, 2, 3, 3, 9]⟩).insertTimes? 1 1 = some T
        ∧ S.compact = T.compact)
      ∧ (openStart.spline.remove? 3).map Spline.compact
        = ((openStart.splineOn ⟨[-7, 0, 1, 2, 3, 3, 9]⟩).remove? 3).map Spline.compact := by
  have valid : openStart.isValid = true := by decide +kernel
  have unclamped : openStart.isClamped .start = false := by decide +kernel
  have start : openStart.domain.1 = 1 := by decide +kernel
  have copies : openStart.degree - openStart.knots.count 1 = 1 := by decide +kernel
  let own : openStart.knots.Padding := ⟨-1, 3, by decide +kernel, by decide +kernel⟩
  let far : openStart.knots.Padding := ⟨-7, 9, by decide +kernel, by decide +kernel⟩
  have padded : openStart.splineOn own.knots = openStart.spline := by decide +kernel
  obtain ⟨-, -, -, clamping, removal⟩ := padding_has_no_influence valid own far
  have inserted := clamping unclamped
  have removed := (removal 2 (by decide +kernel) (by decide +kernel) (by decide +kernel)).1
  rw [padded, start, copies] at inserted
  rw [padded] at removed
  exact ⟨valid, unclamped, inserted, removed⟩

end Curve

end RationalSpline
