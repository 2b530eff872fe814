/-
  RationalSpline.Proofs.DerivativeTable
  ─────────────────────────────────────
  THE TABLE OF DERIVATIVES HOLDS THE DERIVATIVES.

  The table is filled in place at computed indices, and each step checks its index and
  its words.  Every loop has one invariant: which cells are filled, and with what.  From
  it follow at once that no index leaves a table, so that the loop has a result, and
  what the table holds at the end: the rows of `KnotVector.derivativeRows`.

  Only the factorial factors can leave their word.  The loop multiplies the factor once
  more than it uses it, so it needs one product beyond the last factor.

  No law of arithmetic is used: the operations are the same, in the same order.
-/
import Mathlib
import RationalSpline.KnotVector.DerivativeTable
import RationalSpline.KnotVector.BasisDerivatives
import RationalSpline.KnotVector.SpanSearch

namespace RationalSpline.KnotVector

variable {α : Type} [Scalar α] {U : KnotVector α} {i p : Nat} {u : α}

/-! ## §1. The checked search. -/

theorem getElem?_values (U : KnotVector α) {k : Nat} (h : k < U.size) :
    U.values[k]? = some (U.knot k) := by
  have inside : k < U.values.length := h
  rw [knot, List.getD_eq_getElem _ _ inside, List.getElem?_eq_getElem inside]

/-- Between two different bounds, bisection stays below the upper one. -/
theorem bisect_lt (U : KnotVector α) (u : α) {low high : Nat} (h : low < high) :
    U.bisect u low high < high := by
  fun_induction U.bisect u low high with
  | case1 | case3 | case5 => omega
  | case2 low high middle _ moves ih =>
      have inside := ih (by omega)
      omega
  | case4 low high middle _ _ moves ih => exact ih (by omega)

/-- A round of the search meets the knots at its midpoint and behind it. -/
structure Reads (U : KnotVector α) (low high : Nat) : Prop where
  /-- The lower bound is an index. -/
  low_lt : low < U.size
  /-- The upper bound is an index. -/
  high_lt : high < U.size
  /-- Between equal bounds the midpoint is no lower than they are. -/
  next_lt : low = high → high + 1 < U.size

/-- A checked round of the bisection: what it reads, and where it goes on. -/
theorem bisect?_eq_bind (U : KnotVector α) (u : α) (low high : Nat) :
    U.bisect? u low high =
      (U.values[(low + high) / 2]?).bind fun k =>
        if u < k then
          if (low + (low + high) / 2) / 2 = (low + high) / 2 then some ((low + high) / 2)
          else U.bisect? u low ((low + high) / 2)
        else (U.values[(low + high) / 2 + 1]?).bind fun k' =>
          if k' ≤ u then
            if ((low + high) / 2 + high) / 2 = (low + high) / 2 then some ((low + high) / 2)
            else U.bisect? u ((low + high) / 2) high
          else some ((low + high) / 2) := by
  rw [bisect?]
  cases U.values[(low + high) / 2]? with
  | none => rfl
  | some k => cases U.values[(low + high) / 2 + 1]? <;> rfl

/-- With its two knots there, a checked round is a round. -/
theorem bisect?_round (u : α) {low high : Nat} (h : U.Reads low high) :
    U.bisect? u low high =
      if u < U.knot ((low + high) / 2) then
        if (low + (low + high) / 2) / 2 = (low + high) / 2 then some ((low + high) / 2)
        else U.bisect? u low ((low + high) / 2)
      else if U.knot ((low + high) / 2 + 1) ≤ u then
        if ((low + high) / 2 + high) / 2 = (low + high) / 2 then some ((low + high) / 2)
        else U.bisect? u ((low + high) / 2) high
      else some ((low + high) / 2) := by
  obtain ⟨first, last, next⟩ := h
  rw [bisect?_eq_bind, U.getElem?_values (show (low + high) / 2 < U.size by omega),
      U.getElem?_values (show (low + high) / 2 + 1 < U.size by omega)]
  rfl

/-- **The search has a result on any knots, in order or not.** -/
theorem bisect?_eq (u : α) {low high : Nat} (h : U.Reads low high) :
    U.bisect? u low high = some (U.bisect u low high) := by
  fun_induction U.bisect u low high with
  | case1 low high middle below still =>
      rw [bisect?_round u h, if_pos below, if_pos still]
  | case2 low high middle below moves ih =>
      obtain ⟨first, last, next⟩ := h
      rw [bisect?_round u ⟨first, last, next⟩, if_pos below, if_neg moves]
      exact ih ⟨first, by omega, by omega⟩
  | case3 low high middle below beyond still =>
      rw [bisect?_round u h, if_neg below, if_pos beyond, if_pos still]
  | case4 low high middle below beyond moves ih =>
      obtain ⟨first, last, next⟩ := h
      rw [bisect?_round u ⟨first, last, next⟩, if_neg below, if_pos beyond, if_neg moves]
      exact ih ⟨by omega, last, by omega⟩
  | case5 low high middle below beyond =>
      rw [bisect?_round u h, if_neg below, if_neg beyond]

variable [Precision α]

theorem span_le (U : KnotVector α) {n : Nat} (u : α) (h : p ≤ n) : U.span n p u ≤ n := by
  have inside := U.bisect_lt u (show p < n + 1 by omega)
  unfold span
  split
  · omega
  · split <;> omega

theorem span?_eq {n : Nat} (u : α) (h : U.Reads p (n + 1)) (word : U.size ≤ countLimit) :
    U.span? n p u = some (U.span n p u) := by
  have first := h.low_lt
  have last := h.high_lt
  rw [span?, Word.unsigned?_eq (show (n : Int) + 1 = (n + 1 : Nat) by omega) (by omega)]
  simp only [Option.bind_eq_bind, Option.bind_some, U.getElem?_values last,
    U.getElem?_values first, bisect?_eq u h]
  unfold span
  split
  · rfl
  · split <;> rfl

omit [Precision α]

/-! ## §2. Raised rows. -/

/-- The share that the entry before `m` passes on, when a row is raised to the degree `j`. -/
def passed (U : KnotVector α) (i : Nat) (u : α) (j : Nat) (saved : α) (r : Nat) (row : List α) :
    Nat → α
  | 0 => saved
  | m + 1 => U.below i u (j - (r + m)) * (row.getD m 0 / U.support i u j (r + m))

theorem passed_cons (U : KnotVector α) (i : Nat) (u : α) (j : Nat) (saved : α) (r : Nat) (b : α)
    (bs : List α) (m : Nat) :
    U.passed i u j saved r (b :: bs) (m + 1)
      = U.passed i u j (U.below i u (j - r) * (b / U.support i u j r)) (r + 1) bs m := by
  cases m with
  | zero => rfl
  | succ m =>
      rw [passed, passed, List.getD_cons_succ, show r + (m + 1) = r + 1 + m by omega]

theorem getD_raiseRow (U : KnotVector α) (i : Nat) (u : α) (j : Nat) (saved : α) (r : Nat)
    (row : List α) {m : Nat} (h : m < row.length) :
    (U.raiseRow i u j saved r row).getD m 0
      = U.passed i u j saved r row m
        + U.above i u (r + m + 1) * (row.getD m 0 / U.support i u j (r + m)) := by
  induction row generalizing saved r m with
  | nil => simp at h
  | cons b bs ih =>
      cases m with
      | zero => rfl
      | succ m =>
          rw [raiseRow, List.getD_cons_succ, ih _ _ (by simpa using h), passed_cons,
              List.getD_cons_succ, show r + 1 + m = r + (m + 1) by omega]

theorem getD_raiseRow_length (U : KnotVector α) (i : Nat) (u : α) (j : Nat) (saved : α) (r : Nat)
    (row : List α) :
    (U.raiseRow i u j saved r row).getD row.length 0
      = U.passed i u j saved r row row.length := by
  induction row generalizing saved r with
  | nil => rfl
  | cons b bs ih =>
      rw [raiseRow, List.length_cons, List.getD_cons_succ, ih, passed_cons]

/-! ## §3. The triangle. -/

omit [Scalar α] in
/-- The indices that a row of degree `j` computes are words: the knot behind the span, and the
outermost knots of the row. -/
theorem row_words {j : Nat} (hp : p ≤ i + 1) (size : i + p < U.size)
    (words : U.size ≤ countLimit) (h₁ : 1 ≤ j) (hj : j ≤ p) :
    Word.unsigned? ((i : Int) + 1) = some (i + 1)
      ∧ Word.unsigned? (((i + 1 : Nat) : Int) - j) = some (i + 1 - j)
      ∧ Word.unsigned? ((i : Int) + j) = some (i + j) :=
  ⟨Word.unsigned?_eq (by omega) (by omega), Word.unsigned?_eq (by omega) (by omega),
    Word.unsigned?_eq (by omega) (by omega)⟩

/-- A distance that is written behind those that are there. -/
theorem getD_set_distance {values : List α} {distance : Nat → α} {j : Nat}
    (inside : j < values.length)
    (filled : ∀ k, 1 ≤ k → k ≤ j - 1 → values.getD k 0 = distance k) :
    ∀ k, 1 ≤ k → k ≤ j → (values.set j (distance j)).getD k 0 = distance k := by
  intro k low high
  rw [Sequence.getD_set _ inside]
  split
  next same => rw [same]
  next other => exact filled k low (by omega)

namespace Triangle

/-- How far a triangle of degree `p` is filled: `m` distances on either side, the columns
before `j`, and the first `r` cells of column `j`. -/
structure Filled (U : KnotVector α) (i : Nat) (u : α) (p m j r : Nat) (T : Triangle α) :
    Prop where
  /-- The room for distances. -/
  length_below : T.below.length = p + 1
  length_above : T.above.length = p + 1
  /-- The room for basis functions. -/
  sized : T.cells.Sized (p + 1) (p + 1)
  /-- The distances. -/
  below_eq : ∀ k, 1 ≤ k → k ≤ m → T.below.getD k 0 = U.below i u k
  above_eq : ∀ k, 1 ≤ k → k ≤ m → T.above.getD k 0 = U.above i u k
  /-- The basis functions. -/
  basis_eq : ∀ q s, s ≤ q → q < j ∨ q = j ∧ s < r →
    T.cells.cell s q = (U.basisRow i u q).getD s 0
  /-- The supports. -/
  support_eq : ∀ q s, s < q → q < j ∨ q = j ∧ s < r → T.cells.cell q s = U.support i u q s

theorem exists_start (U : KnotVector α) (i p : Nat) (u : α) :
    ∃ T : Triangle α, start p = some T ∧ T.Filled U i u p 0 1 0 := by
  obtain ⟨cells, put, sized, cell⟩ := (Grid.sized_zeros (p + 1) (p + 1)).put?_eq
    (i := 0) (j := 0) (r := 0) (c := 0) rfl rfl (by omega) (by omega) (1 : α)
  refine ⟨_, by rw [start, put]; rfl, by simp, by simp, sized, by omega, by omega, ?_, by omega⟩
  intro q s le filled
  obtain ⟨rfl, rfl⟩ : q = 0 ∧ s = 0 := by omega
  rw [cell]
  rfl

/-- **One cell and its support.** -/
theorem exists_addCell {j r : Nat} {T : Triangle α} {saved : α} (hj : j ≤ p) (hr : r < j)
    (h : T.Filled U i u p j j r)
    (carried : saved = U.passed i u j 0 0 (U.basisRow i u (j - 1)) r) :
    ∃ T' saved', addCell? j (T, saved) r = some (T', saved')
      ∧ T'.Filled U i u p j j (r + 1)
      ∧ saved' = U.passed i u j 0 0 (U.basisRow i u (j - 1)) (r + 1) := by
  have above : Sequence.item? T.above ((r : Int) + 1) = some (U.above i u (r + 1)) := by
    rw [Sequence.item?_eq (show (r : Int) + 1 = (r + 1 : Nat) by omega)
      (by rw [h.length_above]; omega) 0, h.above_eq _ (by omega) (by omega)]
  have below : Sequence.item? T.below ((j : Int) - r) = some (U.below i u (j - r)) := by
    rw [Sequence.item?_eq (show (j : Int) - r = (j - r : Nat) by omega)
      (by rw [h.length_below]; omega) 0, h.below_eq _ (by omega) (by omega)]
  -- the support is written below the diagonal, the new basis function above it
  obtain ⟨cells₁, put₁, sized₁, cell₁⟩ := h.sized.put?_eq (i := j) (j := r) rfl rfl
    (show j < p + 1 by omega) (show r < p + 1 by omega)
    (U.above i u (r + 1) + U.below i u (j - r))
  have before : cells₁.at? r ((j : Int) - 1) = some ((U.basisRow i u (j - 1)).getD r 0) := by
    rw [sized₁.at?_eq rfl (show (j : Int) - 1 = (j - 1 : Nat) by omega) (by omega) (by omega),
        cell₁, if_neg (by omega), h.basis_eq _ _ (by omega) (by omega)]
  have support : cells₁.at? j r = some (U.support i u j r) := by
    rw [sized₁.at?_eq rfl rfl (by omega) (by omega), cell₁, if_pos ⟨rfl, rfl⟩]
    rfl
  obtain ⟨cells₂, put₂, sized₂, cell₂⟩ := sized₁.put?_eq (i := r) (j := j) rfl rfl
    (show r < p + 1 by omega) (show j < p + 1 by omega)
    (saved + U.above i u (r + 1) * ((U.basisRow i u (j - 1)).getD r 0 / U.support i u j r))
  refine ⟨{ T with cells := cells₂ }, _, ?_,
    ⟨h.length_below, h.length_above, sized₂, h.below_eq, h.above_eq, ?_, ?_⟩, rfl⟩
  · simp only [addCell?, above, below, put₁, before, support, put₂, Option.bind_eq_bind,
      Option.bind_some, Option.pure_def, passed, zero_add]
  -- so neither write touches the cells of the other kind
  · intro q s le filled
    rw [cell₂]
    split
    next same =>
      obtain ⟨rfl, rfl⟩ := same
      obtain ⟨n, rfl⟩ : ∃ n, q = n + 1 := ⟨q - 1, by omega⟩
      rw [basisRow, getD_raiseRow _ _ _ _ _ _ _ (by simpa using hr), zero_add, carried]
      rfl
    next other =>
      rw [cell₁, if_neg (by omega)]
      exact h.basis_eq q s le (by omega)
  · intro q s lt filled
    rw [cell₂, if_neg (by omega), cell₁]
    split
    next same =>
      obtain ⟨rfl, rfl⟩ := same
      rfl
    next other => exact h.support_eq q s lt (by omega)

/-- **One column.** -/
theorem exists_addColumn {j : Nat} {T : Triangle α} (hp : p ≤ i + 1) (size : i + p < U.size)
    (word : U.size ≤ countLimit) (h₁ : 1 ≤ j) (hj : j ≤ p) (h : T.Filled U i u p (j - 1) j 0) :
    ∃ T', addColumn? U i u T j = some T' ∧ T'.Filled U i u p j (j + 1) 0 := by
  obtain ⟨next, low, high⟩ := row_words hp size word h₁ hj
  have insideBelow : j < T.below.length := by rw [h.length_below]; omega
  have insideAbove : j < T.above.length := by rw [h.length_above]; omega
  have below := Sequence.replace?_eq (i := j) rfl insideBelow (U.below i u j)
  have above := Sequence.replace?_eq (i := j) rfl insideAbove (U.above i u j)
  -- the new distances are all that the first cell adds to the columns before
  have begun : Filled U i u p j j 0
      { T with below := T.below.set j (U.below i u j), above := T.above.set j (U.above i u j) } :=
    ⟨by simpa using h.length_below, by simpa using h.length_above, h.sized,
      getD_set_distance insideBelow h.below_eq, getD_set_distance insideAbove h.above_eq,
      h.basis_eq, h.support_eq⟩
  obtain ⟨⟨T₁, saved⟩, run, filled, carried⟩ := exists_foldlM (addCell? j) 0 j
    (fun r (state : Triangle α × α) => Filled U i u p j j r state.1
      ∧ state.2 = U.passed i u j 0 0 (U.basisRow i u (j - 1)) r)
    (s := (_, 0)) ⟨begun, rfl⟩ (by
      rintro r ⟨T₁, saved⟩ - hr ⟨filled, carried⟩
      obtain ⟨T₂, saved₂, step, rest⟩ := exists_addCell hj (by omega) filled carried
      exact ⟨(T₂, saved₂), step, rest⟩)
  rw [Nat.zero_add] at filled carried
  obtain ⟨cells, put, sized, cell⟩ := filled.sized.put?_eq (i := j) (j := j) rfl rfl
    (show j < p + 1 by omega) (show j < p + 1 by omega) saved
  refine ⟨{ T₁ with cells := cells }, ?_, ⟨filled.length_below, filled.length_above, sized,
    filled.below_eq, filled.above_eq, ?_, ?_⟩⟩
  · simp only [addColumn?, next, low, high, Option.bind_eq_bind, Option.bind_some,
      U.getElem?_values (show i + 1 - j < U.size by omega),
      U.getElem?_values (show i + j < U.size by omega)]
    rw [← KnotVector.below, ← KnotVector.above, below]
    simp only [above, run, put, Option.bind_some, Option.pure_def]
  · intro q s le columns
    rw [cell]
    split
    next same =>
      -- the last entry of a row is the share that is left
      obtain ⟨rfl, rfl⟩ := same
      obtain ⟨n, rfl⟩ : ∃ n, q = n + 1 := ⟨q - 1, by omega⟩
      have last := U.getD_raiseRow_length i u (n + 1) 0 0 (U.basisRow i u n)
      rw [length_basisRow] at last
      rw [basisRow, last]
      exact carried
    next other => exact filled.basis_eq q s le (by omega)
  · intro q s lt columns
    rw [cell, if_neg (by omega)]
    exact filled.support_eq q s lt (by omega)

/-- A reading of a basis function. -/
theorem Filled.at_basis {T : Triangle α} (h : T.Filled U i u p p (p + 1) 0) {x y : Int}
    {q m : Nat} (hx : x = q) (hy : y = m) (le : q ≤ m) (column : m ≤ p) :
    T.cells.at? x y = some ((U.basisRow i u m).getD q 0) := by
  rw [h.sized.at?_eq hx hy (by omega) (by omega), h.basis_eq m q le (by omega)]

/-- A reading of the length of a support. -/
theorem Filled.at_support {T : Triangle α} (h : T.Filled U i u p p (p + 1) 0) {x y : Int}
    {q m : Nat} (hx : x = m) (hy : y = q) (lt : q < m) (column : m ≤ p) :
    T.cells.at? x y = some (U.support i u m q) := by
  rw [h.sized.at?_eq hx hy (by omega) (by omega), h.support_eq m q lt (by omega)]

end Triangle

/-- **The triangle is there, and holds all basis functions and supports.** -/
theorem exists_triangle (hp : p ≤ i + 1) (size : i + p < U.size) (word : U.size ≤ countLimit) :
    ∃ T, U.triangle? i p u = some T ∧ T.Filled U i u p p (p + 1) 0 := by
  obtain ⟨T₀, start, begun⟩ := Triangle.exists_start U i p u
  obtain ⟨T, run, filled⟩ := exists_foldlM (Triangle.addColumn? U i u) 1 p
    (fun j T => Triangle.Filled U i u p (j - 1) j 0 T)
    begun (fun j T low high filled =>
      Triangle.exists_addColumn hp size word low (by omega) filled)
  refine ⟨T, ?_, by simpa [Nat.add_comm] using filled⟩
  rw [triangle?, start]
  exact run

/-! ## §4. Coefficients and sums. -/

theorem getD_differences_succ (U : KnotVector α) (i : Nat) (u : α) {r k q : Nat}
    (h : q + (k + 1) ≤ p) :
    (U.differences i u p r (k + 1)).getD q 0
      = U.nextDifference i u p r k (U.differences i u p r k) q := by
  have inside : q < p - k := by omega
  simp [differences, List.getD_eq_getElem?_getD, inside]

theorem getD_differences_zero (U : KnotVector α) (i : Nat) (u : α) {r : Nat} (h : r ≤ p) :
    (U.differences i u p r 0).getD r 0 = 1 := by
  simp [differences, List.getD_eq_getElem?_getD, Nat.lt_succ_of_le h]

theorem shares_succ (c row : List α) (r k n : Nat) :
    shares c row r k (n + 1) =
      if r < n + k ∧ n ≤ r then shares c row r k n + c.getD n 0 * row.getD n 0
      else shares c row r k n := by
  rw [shares, List.range_succ, List.foldl_append]
  rfl

/-- Places without a coefficient add nothing. -/
theorem shares_skip (c row : List α) {r k m n : Nat} (le : m ≤ n)
    (h : ∀ q, m ≤ q → q < n → ¬(r < q + k ∧ q ≤ r)) :
    shares c row r k n = shares c row r k m := by
  induction n, le using Nat.le_induction with
  | base => rfl
  | succ n le ih =>
      rw [shares_succ, if_neg (h n le n.lt_succ_self)]
      exact ih fun q low high => h q low (by omega)

namespace Turns

/-- The row to be read holds the coefficients of order `k` for the place `r`. -/
structure Holds (U : KnotVector α) (i : Nat) (u : α) (p r k : Nat) (a : Turns α) : Prop where
  /-- The two rows. -/
  sized : a.rows.Sized 2 (p + 1)
  /-- Which of them is read, and which one is written. -/
  read_lt : a.read < 2
  write_lt : a.write < 2
  ne : a.read ≠ a.write
  /-- The coefficients. -/
  coefficient : ∀ q j, q ≤ r → q + k ≤ p → j + r = q + k →
    a.rows.cell a.read j = (U.differences i u p r k).getD q 0

/-- The row to be written holds the coefficients of order `k + 1` of the places before `n`,
and the other row is still that of `a`. -/
structure Written (U : KnotVector α) (i : Nat) (u : α) (p r k : Nat) (a : Turns α) (n : Nat)
    (b : Turns α) : Prop where
  /-- The two rows. -/
  sized : b.rows.Sized 2 (p + 1)
  /-- Which of them is read, and which one is written. -/
  read_eq : b.read = a.read
  write_eq : b.write = a.write
  /-- The coefficients of order `k`. -/
  cell_read : ∀ j, b.rows.cell b.read j = a.rows.cell a.read j
  /-- The coefficients of order `k + 1`. -/
  coefficient : ∀ q j, q < n → q ≤ r → q + (k + 1) ≤ p → j + r = q + (k + 1) →
    b.rows.cell b.write j = (U.differences i u p r (k + 1)).getD q 0

section Step

variable {T : Triangle α} {r k n : Nat} {a b : Turns α}

/-- Before the first place there is nothing to write. -/
theorem Holds.written (h : a.Holds U i u p r k) (hn : n + k < r ∨ n = 0) :
    a.Written U i u p r k n a :=
  ⟨h.sized, rfl, rfl, fun _ => rfl, by omega⟩

/-- After the last place the rows change turns. -/
theorem Written.holds (h : a.Holds U i u p r k) (w : a.Written U i u p r k n b)
    (whole : min r (p - (k + 1)) < n ∨ p ≤ k) :
    ({ b with read := b.write, write := b.read } : Turns α).Holds U i u p r (k + 1) :=
  ⟨w.sized, by rw [w.write_eq]; exact h.write_lt, by rw [w.read_eq]; exact h.read_lt,
    by rw [w.read_eq, w.write_eq]; exact h.ne.symm,
    fun q j le inside entry => w.coefficient q j (by omega) le inside entry⟩

/-- A reading of the coefficients of order `k`. -/
theorem Written.at_eq (h : a.Holds U i u p r k) (w : a.Written U i u p r k n b) {j : Int}
    {q : Nat} (le : q ≤ r) (inside : q + k ≤ p) (low : r ≤ q + k)
    (entry : j + r = q + k) :
    b.rows.at? b.read j = some ((U.differences i u p r k).getD q 0) := by
  have read : b.read < 2 := by rw [w.read_eq]; exact h.read_lt
  rw [w.sized.at?_eq rfl (show j = (q + k - r : Nat) by omega) read (by omega), w.cell_read,
      h.coefficient q (q + k - r) le inside (by omega)]

/-- **Store the next coefficient.** -/
theorem Written.store (hT : T.Filled U i u p p (p + 1) 0) (h : a.Holds U i u p r k)
    (w : a.Written U i u p r k n b) {j q y : Int} {c : α} (le : n ≤ r)
    (inside : n + (k + 1) ≤ p) (low : r ≤ n + (k + 1)) (entry : j + r = n + (k + 1))
    (place : q = n) (column : y = p - (k + 1 : Nat))
    (hc : c = (U.differences i u p r (k + 1)).getD n 0) :
    ∃ b', store? T.cells y b j q c
        = some (b', (U.differences i u p r (k + 1)).getD n 0
            * (U.basisRow i u (p - (k + 1))).getD n 0)
      ∧ a.Written U i u p r k (n + 1) b' := by
  have write : b.write < 2 := by rw [w.write_eq]; exact h.write_lt
  have other : b.read ≠ b.write := by rw [w.read_eq, w.write_eq]; exact h.ne
  obtain ⟨rows, put, sized, cell⟩ := w.sized.put?_eq (i := b.write) (j := j) rfl
    (show j = (n + (k + 1) - r : Nat) by omega) write (by omega) c
  refine ⟨{ b with rows }, ?_, ⟨sized, w.read_eq, w.write_eq, ?_, ?_⟩⟩
  · rw [store?, put, hT.at_basis place (show y = (p - (k + 1) : Nat) by omega) (by omega)
      (by omega), hc]
    rfl
  · intro m
    rw [cell, if_neg fun same => other same.1, w.cell_read]
  · intro q' m lt le' inside' entry'
    rw [cell]
    split
    next same =>
      rw [show q' = n by omega]
      exact hc
    next different =>
      refine w.coefficient q' m ?_ le' inside' entry'
      by_contra reached
      exact different ⟨rfl, by omega⟩

/-- **The first place.** -/
theorem Holds.exists_first (hT : T.Filled U i u p p (p + 1) 0) (h : a.Holds U i u p r k)
    (small : p < storageLimit) (hr : r ≤ p) :
    ∃ b, first? T.cells (k + 1) r (r - (k + 1 : Nat)) (p - (k + 1 : Nat)) a
        = some (b, shares (U.differences i u p r (k + 1)) (U.basisRow i u (p - (k + 1))) r
            (k + 1) (r - k))
      ∧ a.Written U i u p r k (r - k) b := by
  have limit : storageLimit = 140737488355328 := rfl
  have sum : shares (U.differences i u p r (k + 1)) (U.basisRow i u (p - (k + 1))) r (k + 1) (r - k)
      = if k + 1 ≤ r then (U.differences i u p r (k + 1)).getD (r - (k + 1)) 0
          * (U.basisRow i u (p - (k + 1))).getD (r - (k + 1)) 0 else 0 := by
    rw [shares_skip _ _ (Nat.zero_le _) (by omega)]
    rfl
  by_cases reaches : k + 1 ≤ r
  · have coefficient :
        (U.differences i u p r k).getD (r - k) 0 / U.support i u (p - k) (r - (k + 1))
          = (U.differences i u p r (k + 1)).getD (r - (k + 1)) 0 := by
      rw [getD_differences_succ U i u (by omega), nextDifference, if_pos (by omega),
          show r - (k + 1) + 1 = r - k by omega]
    have w : a.Written U i u p r k (r - (k + 1)) a := h.written (by omega)
    obtain ⟨b, store, written⟩ := w.store hT h (j := 0) (q := r - (k + 1 : Nat))
      (y := p - (k + 1 : Nat)) (by omega) (by omega) (by omega) (by omega) (by omega) rfl
      coefficient
    rw [show r - (k + 1) + 1 = r - k by omega] at written
    refine ⟨b, ?_, written⟩
    have column : Word.signed? ((p : Int) - (k + 1 : Nat) + 1)
        = some ((p : Int) - (k + 1 : Nat) + 1) := Word.signed?_eq (by omega) (by omega)
    rw [sum, if_pos reaches, ← store, first?, if_pos reaches]
    simp only [column, Option.bind_eq_bind, Option.bind_some,
      w.at_eq h (j := 0) (q := r - k) (by omega) (by omega) (by omega) (by omega),
      hT.at_support (x := (p : Int) - (k + 1 : Nat) + 1) (y := (r : Int) - (k + 1 : Nat))
        (m := p - k) (q := r - (k + 1)) (by omega) (by omega) (by omega) (by omega)]
  · refine ⟨a, ?_, h.written (by omega)⟩
    rw [sum, if_neg reaches, first?, if_neg reaches]

/-- **A place between.** -/
theorem Written.exists_between (hT : T.Filled U i u p p (p + 1) 0) (h : a.Holds U i u p r k)
    (w : a.Written U i u p r k n b) (small : p < storageLimit) (count : k < storageLimit)
    (lt : n < r) (inside : n + (k + 1) ≤ p) (low : r < n + (k + 1)) {j₁ : Int} {m : Nat}
    (entry : j₁ + m + r = n + (k + 1)) {d : α}
    (hd : d = shares (U.differences i u p r (k + 1)) (U.basisRow i u (p - (k + 1))) r (k + 1) n) :
    ∃ b', between? T.cells (r - (k + 1 : Nat)) (p - (k + 1 : Nat)) j₁ (b, d) m
        = some (b', shares (U.differences i u p r (k + 1)) (U.basisRow i u (p - (k + 1))) r
            (k + 1) (n + 1))
      ∧ a.Written U i u p r k (n + 1) b' := by
  have limit : storageLimit = 140737488355328 := rfl
  have coefficient : ((U.differences i u p r k).getD (n + 1) 0 - (U.differences i u p r k).getD n 0)
        / U.support i u (p - k) n
      = (U.differences i u p r (k + 1)).getD n 0 := by
    rw [getD_differences_succ U i u inside, nextDifference, if_neg (by omega), if_neg (by omega),
        if_pos ⟨low, lt⟩]
  obtain ⟨b', store, written⟩ := w.store hT h (j := j₁ + m) (q := r - (k + 1 : Nat) + (j₁ + m))
    (y := p - (k + 1 : Nat)) lt.le inside (by omega) entry (by omega) rfl coefficient
  refine ⟨b', ?_, written⟩
  have place : Word.signed? ((r : Int) - (k + 1 : Nat) + (j₁ + m))
      = some ((r : Int) - (k + 1 : Nat) + (j₁ + m)) := Word.signed?_eq (by omega) (by omega)
  have column : Word.signed? ((p : Int) - (k + 1 : Nat) + 1)
      = some ((p : Int) - (k + 1 : Nat) + 1) := Word.signed?_eq (by omega) (by omega)
  simp only [between?, place, column, Option.bind_eq_bind, Option.bind_some,
    w.at_eq h (j := j₁ + m) (q := n + 1) (by omega) (by omega) (by omega) (by omega),
    w.at_eq h (j := j₁ + m - 1) (q := n) (by omega) (by omega) (by omega) (by omega),
    hT.at_support (x := (p : Int) - (k + 1 : Nat) + 1) (y := (r : Int) - (k + 1 : Nat) + (j₁ + m))
      (m := p - k) (q := n) (by omega) (by omega) (by omega) (by omega), store, Option.pure_def]
  rw [shares_succ, if_pos (by omega), hd]

/-- **The last place.** -/
theorem Written.exists_last (hT : T.Filled U i u p p (p + 1) 0) (h : a.Holds U i u p r k)
    (w : a.Written U i u p r k (min r (p - k)) b) (small : p < storageLimit) (hk : k + 1 ≤ p)
    {d : α}
    (hd : d = shares (U.differences i u p r (k + 1)) (U.basisRow i u (p - (k + 1))) r (k + 1)
      (min r (p - k))) :
    ∃ b', last? T.cells (k + 1) r (p - (k + 1 : Nat)) (b, d)
        = some (b', shares (U.differences i u p r (k + 1)) (U.basisRow i u (p - (k + 1))) r
            (k + 1) (p - k))
      ∧ a.Written U i u p r k (min (r + 1) (p - k)) b' := by
  have limit : storageLimit = 140737488355328 := rfl
  by_cases reaches : r + (k + 1) ≤ p
  · rw [show min r (p - k) = r by omega] at w hd
    have coefficient : -(U.differences i u p r k).getD r 0 / U.support i u (p - k) r
        = (U.differences i u p r (k + 1)).getD r 0 := by
      rw [getD_differences_succ U i u reaches, nextDifference, if_neg (by omega), if_pos rfl]
    obtain ⟨b', store, written⟩ := w.store hT h (j := (k + 1 : Nat)) (q := r)
      (y := p - (k + 1 : Nat)) le_rfl reaches (by omega) (by omega) rfl rfl coefficient
    refine ⟨b', ?_, by rwa [show min (r + 1) (p - k) = r + 1 by omega]⟩
    have column : Word.signed? ((p : Int) - (k + 1 : Nat) + 1)
        = some ((p : Int) - (k + 1 : Nat) + 1) := Word.signed?_eq (by omega) (by omega)
    rw [last?, if_pos (by omega)]
    simp only [column, Option.bind_eq_bind, Option.bind_some,
      w.at_eq h (j := (k + 1 : Nat) - 1) (q := r) (by omega) (by omega) (by omega) (by omega),
      hT.at_support (x := (p : Int) - (k + 1 : Nat) + 1) (y := r)
        (m := p - k) (q := r) (by omega) rfl (by omega) (by omega), store, Option.pure_def]
    -- no place behind the last one adds anything
    rw [shares_skip _ _ (show r + 1 ≤ p - k by omega) (by omega), shares_succ,
        if_pos (by omega), hd]
  · rw [show min r (p - k) = p - k by omega] at w hd
    refine ⟨b, ?_, by rwa [show min (r + 1) (p - k) = p - k by omega]⟩
    rw [last?, if_neg (by omega), hd]

omit [Scalar α] in
/-- The entries between start behind the first place and stop before the last one. -/
theorem exists_entries (small : p < storageLimit) (count : k < storageLimit) (hr : r ≤ p) :
    ∃ j₁ j₂, lowest? (r - (k + 1 : Nat)) = some j₁
      ∧ highest? p r (k + 1) (p - (k + 1 : Nat)) = some j₂
      ∧ (k ≤ p → j₁ + r = (r - k : Nat) + (k + 1))
      ∧ (j₂ + 1 - j₁).toNat = min r (p - k) - (r - k) := by
  have limit : storageLimit = 140737488355328 := rfl
  have before : Word.signed? ((r : Int) - 1) = some ((r : Int) - 1) :=
    Word.signed?_eq (by omega) (by omega)
  obtain ⟨j₁, start, low⟩ : ∃ j₁, lowest? (r - (k + 1 : Nat)) = some j₁
      ∧ j₁ + r = (r - k : Nat) + (k + 1) := by
    unfold lowest?
    split
    · exact ⟨1, rfl, by omega⟩
    · exact ⟨_, Word.signed?_eq (by omega) (by omega), by omega⟩
  obtain ⟨j₂, stop, high⟩ : ∃ j₂, highest? p r (k + 1) (p - (k + 1 : Nat)) = some j₂
      ∧ (j₂ + 1 - j₁).toNat = min r (p - k) - (r - k) := by
    simp only [highest?, before, Option.bind_eq_bind, Option.bind_some]
    split
    · exact ⟨_, Word.signed?_eq (by omega) (by omega), by omega⟩
    · exact ⟨_, Word.signed?_eq (by omega) (by omega), by omega⟩
  exact ⟨j₁, j₂, start, stop, fun _ => low, high⟩

/-- **One order.**  Above the degree nothing is read or written. -/
theorem Holds.exists_order (hT : T.Filled U i u p p (p + 1) 0) (h : a.Holds U i u p r k)
    (small : p < storageLimit) (count : k < storageLimit) (hr : r ≤ p) :
    ∃ b, order? T.cells p r a (k + 1) = some (b, U.reducedDerivative i u p (k + 1) r)
      ∧ b.Holds U i u p r (k + 1) := by
  have limit : storageLimit = 140737488355328 := rfl
  generalize sums : shares (U.differences i u p r (k + 1)) (U.basisRow i u (p - (k + 1))) r (k + 1)
    = sum
  have rk : Word.signed? ((r : Int) - (k + 1 : Nat)) = some ((r : Int) - (k + 1 : Nat)) :=
    Word.signed?_eq (by omega) (by omega)
  have pk : Word.signed? ((p : Int) - (k + 1 : Nat)) = some ((p : Int) - (k + 1 : Nat)) :=
    Word.signed?_eq (by omega) (by omega)
  obtain ⟨j₁, j₂, start, stop, entry, length⟩ := exists_entries (k := k) small count hr
  -- up to the degree: the first place, the places between, the last place
  by_cases hk : k + 1 ≤ p
  · obtain ⟨b₀, first, w₀⟩ := h.exists_first hT small hr
    obtain ⟨⟨b₁, d₁⟩, run, w₁, sum₁⟩ := exists_foldlM
      (between? T.cells (r - (k + 1 : Nat)) (p - (k + 1 : Nat)) j₁) 0 (min r (p - k) - (r - k))
      (fun m (state : Turns α × α) => a.Written U i u p r k (r - k + m) state.1
        ∧ state.2 = sum (r - k + m)) (s := (b₀, sum (r - k))) ⟨w₀, rfl⟩ (by
        rintro m ⟨b, d⟩ - hm ⟨w, hd⟩
        rw [← sums] at hd
        obtain ⟨b', step, w'⟩ := w.exists_between hT h small count (by omega) (by omega)
          (by omega) (show j₁ + m + r = (r - k + m : Nat) + (k + 1) by omega) hd
        rw [sums] at step
        exact ⟨(b', _), step, w', rfl⟩)
    rw [Nat.zero_add, show r - k + (min r (p - k) - (r - k)) = min r (p - k) by omega] at w₁ sum₁
    obtain ⟨b₂, last, w₂⟩ := w₁.exists_last hT h small hk (d := d₁) (by rw [sums]; exact sum₁)
    refine ⟨_, ?_, w₂.holds h (by omega)⟩
    have value : U.reducedDerivative i u p (k + 1) r = sum (p - k) := by
      rw [reducedDerivative, if_pos hk, sums, show p - (k + 1) + 1 = p - k by omega]
    rw [sums] at first last
    simp only [order?, rk, pk, first, start, stop, length, run, last, value,
      Option.bind_eq_bind, Option.bind_some, Option.pure_def]
  -- above it: no guard holds and the loop between is empty
  · refine ⟨_, ?_, (h.written (n := 0) (by omega)).holds h (by omega)⟩
    have first : first? T.cells (k + 1) r (r - (k + 1 : Nat)) (p - (k + 1 : Nat)) a
        = some (a, 0) := if_neg (by omega)
    have last : last? T.cells (k + 1) r (p - (k + 1 : Nat)) (a, 0) = some (a, 0) :=
      if_neg (by omega)
    have value : U.reducedDerivative i u p (k + 1) r = 0 := if_neg hk
    simp only [order?, rk, pk, first, start, stop, length, last, value,
      show min r (p - k) - (r - k) = 0 by omega, List.range'_zero, List.foldlM_nil,
      Option.bind_eq_bind, Option.bind_some, Option.pure_def]

end Step

end Turns

/-! ## §5. Rows of derivatives. -/

/-- The table has its values, and all derivatives without their factors of the places before
`r`, and at the place `r` those of orders below `k`. -/
structure Placed (U : KnotVector α) (i : Nat) (u : α) (p count r k : Nat) (ders : Grid α) :
    Prop where
  /-- The room for all of them. -/
  sized : ders.Sized (count + 1) (p + 1)
  /-- The values. -/
  value : ∀ s ≤ p, ders.cell 0 s = (U.basisRow i u p).getD s 0
  /-- The derivatives. -/
  derivative : ∀ l s, 1 ≤ l → l ≤ count → s ≤ p → s < r ∨ s = r ∧ l < k →
    ders.cell l s = U.reducedDerivative i u p l s

section Rows

variable {word : Int → Option Int} {T : Triangle α} {count r k : Nat} {ders : Grid α}

/-- **The values.** -/
theorem exists_values (hT : T.Filled U i u p p (p + 1) 0) (count : Nat) :
    ∃ ders, (List.range' 0 (p + 1)).foldlM (addValue? T.cells p)
        (Grid.zeros (count + 1) (p + 1)) = some ders
      ∧ Placed U i u p count 0 1 ders := by
  obtain ⟨ders, run, sized, values⟩ := exists_foldlM (addValue? T.cells p) 0 (p + 1)
    (fun r ders => ders.Sized (count + 1) (p + 1)
      ∧ ∀ s < r, ders.cell 0 s = (U.basisRow i u p).getD s 0)
    ⟨Grid.sized_zeros (count + 1) (p + 1), by omega⟩ (by
      rintro r ders - hr ⟨sized, values⟩
      obtain ⟨ders', put, sized', cell⟩ := sized.put?_eq (i := 0) (j := r) (r := 0) rfl rfl
        (show 0 < count + 1 by omega) (show r < p + 1 by omega) ((U.basisRow i u p).getD r 0)
      refine ⟨ders', ?_, sized', fun s hs => ?_⟩
      · simp only [addValue?, hT.at_basis (x := r) (y := p) rfl rfl (by omega) le_rfl,
          Option.bind_eq_bind, Option.bind_some, put]
      · rw [cell]
        split
        next same => rw [same.2]
        next other => exact values s (by omega))
  rw [Nat.zero_add] at values
  exact ⟨ders, run, sized, fun s hs => values s (Nat.lt_succ_of_le hs), by omega⟩

/-- **One order of one place.** -/
theorem exists_addOrder (hT : T.Filled U i u p p (p + 1) 0) (small : p < storageLimit)
    (room : count < storageLimit) {a : Turns α} (hr : r ≤ p) (hk : k + 1 ≤ count)
    (h : a.Holds U i u p r k) (placed : Placed U i u p count r (k + 1) ders) :
    ∃ a' ders', addOrder? T.cells p r (a, ders) (k + 1) = some (a', ders')
      ∧ a'.Holds U i u p r (k + 1) ∧ Placed U i u p count r (k + 2) ders' := by
  obtain ⟨a', order, h'⟩ := h.exists_order hT small (by omega) hr
  obtain ⟨ders', put, sized, cell⟩ := placed.sized.put?_eq (i := (k + 1 : Nat)) (j := r) rfl rfl
    (show k + 1 < count + 1 by omega) (show r < p + 1 by omega)
    (U.reducedDerivative i u p (k + 1) r)
  refine ⟨a', ders', ?_, h', sized, fun s hs => ?_, fun l s low high hs filled => ?_⟩
  · simp only [addOrder?, order, put, Option.bind_eq_bind, Option.bind_some, Option.pure_def]
  · rw [cell, if_neg (by omega)]
    exact placed.value s hs
  · rw [cell]
    split
    next same => rw [same.1, same.2]
    next other => exact placed.derivative l s low high hs (by omega)

/-- **All orders of one place.** -/
theorem exists_addPlace (hT : T.Filled U i u p p (p + 1) 0) (small : p < storageLimit)
    (room : count < storageLimit) {rows : Grid α} (sized : rows.Sized 2 (p + 1)) (hr : r ≤ p)
    (placed : Placed U i u p count r 1 ders) :
    ∃ rows' ders', addPlace? T.cells p count (rows, ders) r = some (rows', ders')
      ∧ rows'.Sized 2 (p + 1) ∧ Placed U i u p count (r + 1) 1 ders' := by
  obtain ⟨rows₀, put, sized₀, cell⟩ := sized.put?_eq (i := 0) (j := 0) rfl rfl
    (show 0 < 2 by omega) (show 0 < p + 1 by omega) (1 : α)
  -- the only coefficient of order 0 is that of the place itself
  have begun : (⟨rows₀, 0, 1⟩ : Turns α).Holds U i u p r 0 := by
    refine ⟨sized₀, Nat.zero_lt_two, Nat.one_lt_two, Nat.zero_ne_one,
      fun q j le inside entry => ?_⟩
    obtain ⟨rfl, rfl⟩ : j = 0 ∧ q = r := by omega
    rw [getD_differences_zero U i u hr, cell, if_pos ⟨rfl, rfl⟩]
  obtain ⟨⟨a, ders'⟩, run, h, placed'⟩ := exists_foldlM (addOrder? T.cells p r) 1 count
    (fun k (state : Turns α × Grid α) => state.1.Holds U i u p r (k - 1)
      ∧ Placed U i u p count r k state.2) (s := (⟨rows₀, 0, 1⟩, ders)) ⟨begun, placed⟩ (by
      rintro k ⟨a, ders⟩ low high ⟨h, placed⟩
      obtain ⟨l, rfl⟩ : ∃ l, k = l + 1 := ⟨k - 1, by omega⟩
      obtain ⟨a', ders', step, rest⟩ := exists_addOrder hT small room hr (by omega) h placed
      exact ⟨(a', ders'), step, rest⟩)
  refine ⟨a.rows, ders', ?_, h.sized, placed'.sized, placed'.value,
    fun l s low high hs filled => placed'.derivative l s low high hs (by omega)⟩
  simp only [addPlace?, put, run, Option.bind_eq_bind, Option.bind_some, Option.pure_def]

/-! ## §6. Factors. -/

/-- The derivatives of orders below `k` have their factors, and of the order `k` those at
the places before `r`. -/
structure Scaled (U : KnotVector α) (i : Nat) (u : α) (p count k r : Nat) (ders : Grid α) :
    Prop where
  /-- The room for all of them. -/
  sized : ders.Sized (count + 1) (p + 1)
  /-- The values. -/
  value : ∀ s ≤ p, ders.cell 0 s = (U.basisRow i u p).getD s 0
  /-- The derivatives. -/
  derivative : ∀ l s, 1 ≤ l → l ≤ count → s ≤ p → ders.cell l s =
    if l < k ∨ l = k ∧ s < r then
      U.reducedDerivative i u p l s * (fallingFactorial p l : α)
    else U.reducedDerivative i u p l s

theorem Placed.scaled (h : Placed U i u p count (p + 1) 1 ders) :
    Scaled U i u p count 1 0 ders := by
  refine ⟨h.sized, h.value, fun l s low high hs => ?_⟩
  rw [if_neg (by omega)]
  exact h.derivative l s low high hs (by omega)

/-- **The order `k` gets its factor.** -/
theorem Scaled.exists_row (h : Scaled U i u p count k 0 ders) (low : 1 ≤ k) (high : k ≤ count) :
    ∃ ders', (List.range' 0 (p + 1)).foldlM (scaleCell? k (fallingFactorial p k : Nat)) ders
        = some ders'
      ∧ Scaled U i u p count (k + 1) 0 ders' := by
  obtain ⟨ders', run, h'⟩ := exists_foldlM (scaleCell? k (fallingFactorial p k : Nat)) 0 (p + 1)
    (fun r ders => Scaled U i u p count k r ders) h (by
      rintro r ders - hr h
      obtain ⟨ders', put, sized, cell⟩ := h.sized.put?_eq (i := k) (j := r) rfl rfl
        (show k < count + 1 by omega) (show r < p + 1 by omega)
        (U.reducedDerivative i u p k r * (fallingFactorial p k : α))
      refine ⟨ders', ?_, sized, fun s hs => ?_, fun l s low' high' hs => ?_⟩
      · simp only [scaleCell?, h.sized.at?_eq (i := k) (j := r) rfl rfl
            (show k < count + 1 by omega) (show r < p + 1 by omega),
          h.derivative k r low high (by omega), Option.bind_eq_bind, Option.bind_some,
          Int.toNat_natCast]
        rw [if_neg (by omega), put]
      · rw [cell, if_neg (by omega)]
        exact h.value s hs
      · rw [cell]
        split
        next same =>
          obtain ⟨rfl, rfl⟩ := same
          rw [if_pos (by omega)]
        next other =>
          rw [h.derivative l s low' high' hs]
          exact if_congr (by omega) rfl rfl)
  refine ⟨ders', run, h'.sized, h'.value, fun l s low' high' hs => ?_⟩
  rw [h'.derivative l s low' high' hs]
  exact if_congr (by omega) rfl rfl

omit [Scalar α] in
theorem fallingFactorial_eq (p k : Nat) : fallingFactorial p k = p.descFactorial k := by
  induction k with
  | zero => rfl
  | succ k ih => rw [fallingFactorial, ih, Nat.descFactorial_succ, Nat.mul_comm]

omit [Scalar α] in
/-- The factor of the next order, also where the number to multiply with is negative. -/
theorem fallingFactorial_succ_cast (p k : Nat) :
    (fallingFactorial p k : Int) * ((p : Int) - k) = (fallingFactorial p (k + 1) : Nat) := by
  by_cases le : k ≤ p
  · rw [fallingFactorial, Nat.cast_mul, Nat.cast_sub le]
  · rw [fallingFactorial_eq, fallingFactorial_eq, Nat.descFactorial_of_lt (by omega),
        Nat.descFactorial_of_lt (by omega)]
    simp

/-- **The word of the factor**: the order `k` succeeds as long as the factor of the next
order fits it. -/
theorem Scaled.applyFactor?_eq (h : Scaled U i u p count k 0 ders) (small : p < storageLimit)
    (room : count < storageLimit) (low : 1 ≤ k) (high : k ≤ count) (word : Int → Option Int) :
    ∃ ders', Scaled U i u p count (k + 1) 0 ders'
      ∧ applyFactor? word p (ders, (fallingFactorial p k : Int)) k
        = (word (fallingFactorial p (k + 1))).map (Prod.mk ders') := by
  have limit : storageLimit = 140737488355328 := rfl
  obtain ⟨ders', run, h'⟩ := h.exists_row low high
  have number : Word.signed? ((p : Int) - k) = some ((p : Int) - k) :=
    Word.signed?_eq (by omega) (by omega)
  refine ⟨ders', h', ?_⟩
  rw [applyFactor?]
  simp only [run, Option.bind_eq_bind, Option.bind_some]
  rw [number, Option.bind_some, fallingFactorial_succ_cast, Option.map_eq_bind]
  rfl

/-- Every product that the factor goes through fits its word. -/
def FactorsFit (word : Int → Option Int) (p count : Nat) : Prop :=
  ∀ k, 1 ≤ k → k ≤ count →
    word (fallingFactorial p (k + 1)) = some (fallingFactorial p (k + 1) : Int)

/-- **All factors**, as long as they fit. -/
theorem Scaled.exists_factors (h : Scaled U i u p count 1 0 ders) (small : p < storageLimit)
    (room : count < storageLimit) {n : Nat} (hn : n ≤ count) (fit : FactorsFit word p n) :
    ∃ ders', (List.range' 1 n).foldlM (applyFactor? word p) (ders, (p : Int))
        = some (ders', (fallingFactorial p (n + 1) : Int))
      ∧ Scaled U i u p count (n + 1) 0 ders' := by
  have one : (p : Int) = (fallingFactorial p 1 : Nat) := by
    rw [fallingFactorial, fallingFactorial]
    omega
  obtain ⟨⟨ders', factor⟩, run, h', value⟩ := exists_foldlM (applyFactor? (α := α) word p) 1 n
    (fun k (state : Grid α × Int) => Scaled U i u p count k 0 state.1
      ∧ state.2 = (fallingFactorial p k : Nat)) (s := (ders, (p : Int))) ⟨h, one⟩ (by
      rintro k ⟨ders, factor⟩ low high ⟨h, rfl⟩
      obtain ⟨ders', h', step⟩ := h.applyFactor?_eq small room low (by omega) word
      rw [fit k low (by omega)] at step
      exact ⟨_, step, h', rfl⟩)
  rw [Nat.add_comm 1 n] at h' value
  exact ⟨ders', by rw [run, show factor = _ from value], h'⟩

/-- **A factor that does not fit** ends the loop. -/
theorem Scaled.factors_eq_none (h : Scaled U i u p count 1 0 ders) (small : p < storageLimit)
    (room : count < storageLimit) {n : Nat} (hn : n ≤ count)
    (unfit : ¬FactorsFit Word.signed? p n) :
    (List.range' 1 n).foldlM (applyFactor? Word.signed? p) (ders, (p : Int)) = none := by
  induction n with
  | zero => exact absurd (fun k low high => by omega) unfit
  | succ n ih =>
      rw [List.range'_1_concat, List.foldlM_append]
      by_cases fit : FactorsFit Word.signed? p n
      · obtain ⟨ders', run, h'⟩ := h.exists_factors small room (by omega) fit
        -- the products before fit, so it is the last one that does not
        have large : Word.signedLimit ≤ fallingFactorial p (n + 1 + 1) := by
          by_contra fits
          refine unfit fun k low high => ?_
          rcases Nat.lt_or_ge n k with last | before
          · rw [show k = n + 1 by omega]
            exact Word.signed?_natCast (Nat.lt_of_not_ge fits)
          · exact fit k low before
        obtain ⟨ders'', -, step⟩ := h'.applyFactor?_eq small room (by omega) hn Word.signed?
        rw [Word.signed?_eq_none large] at step
        rw [run, Nat.add_comm 1 n]
        simp only [Option.bind_eq_bind, Option.bind_some, List.foldlM_cons, step,
          Option.map_none, Option.bind_none]
      · rw [ih (by omega) fit]
        rfl

/-- **With all factors the table is that of the derivatives.** -/
theorem Scaled.eq_derivativeRows (h : Scaled U i u p count (count + 1) 0 ders) :
    ders = U.derivativeRows i u p count := by
  have row : ∀ l < count + 1,
      (U.derivativeRows i u p count).getD l [] = U.derivativeRow i u p l := by
    intro l hl
    simp [derivativeRows, List.getD_eq_getElem?_getD, hl]
  have sized : Grid.Sized (U.derivativeRows i u p count) (count + 1) (p + 1) :=
    ⟨by simp, fun l hl => by rw [row l hl, length_derivativeRow]⟩
  refine h.sized.eq_of_cell sized fun l hl s hs => ?_
  rw [Grid.cell, Grid.cell, row l hl]
  rcases Nat.eq_zero_or_pos l with rfl | pos
  · rw [derivativeRow, if_pos rfl]
    exact h.value s (by omega)
  · have entry := h.derivative l s pos (by omega) (by omega)
    rw [if_pos (by omega)] at entry
    rw [derivativeRow, if_neg (by omega)]
    simp only [List.getD_eq_getElem?_getD, List.getElem?_map, List.getElem?_range hs,
      Option.map_some, Option.getD_some]
    simpa [Grid.cell, List.getD_eq_getElem?_getD] using entry

/-! ## §7. The whole table. -/

/-- Up to the factors, the table is always filled. -/
theorem exists_derivatives (hp : p ≤ i + 1) (size : i + p < U.size) (words : U.size ≤ countLimit)
    (small : p < storageLimit) (room : count < storageLimit) :
    ∃ ders : Grid α, Scaled U i u p count 1 0 ders ∧ ∀ word, U.derivativeRowsIn? word i p u count
      = ((List.range' 1 count).foldlM (applyFactor? word p) (ders, (p : Int))).map Prod.fst := by
  obtain ⟨T, triangle, hT⟩ := exists_triangle (u := u) hp size words
  obtain ⟨ders₀, values, placed₀⟩ := exists_values hT count
  obtain ⟨⟨rows, ders⟩, places, -, placed⟩ := exists_foldlM (addPlace? T.cells p count) 0 (p + 1)
    (fun r (state : Grid α × Grid α) => state.1.Sized 2 (p + 1)
      ∧ Placed U i u p count r 1 state.2) (s := (Grid.zeros 2 (p + 1), ders₀))
    ⟨Grid.sized_zeros 2 (p + 1), placed₀⟩ (by
      rintro r ⟨rows, ders⟩ - hr ⟨sized, placed⟩
      obtain ⟨rows', ders', step, rest⟩ := exists_addPlace hT small room sized (by omega) placed
      exact ⟨(rows', ders'), step, rest⟩)
  rw [Nat.zero_add] at placed
  refine ⟨ders, placed.scaled, fun word => ?_⟩
  rw [derivativeRowsIn?, if_pos ⟨small, room⟩]
  simp only [triangle, values, places, Option.bind_eq_bind, Option.bind_some, Option.pure_def]
  cases (List.range' 1 count).foldlM (applyFactor? word p) (ders, (p : Int)) <;> rfl

/-- **The table holds the derivatives.** -/
theorem derivativeRowsIn?_eq_some (hp : p ≤ i + 1) (size : i + p < U.size)
    (words : U.size ≤ countLimit) (small : p < storageLimit) (room : count < storageLimit)
    (fit : FactorsFit word p count) :
    U.derivativeRowsIn? word i p u count = some (U.derivativeRows i u p count) := by
  obtain ⟨ders, scaled, whole⟩ := exists_derivatives (u := u) hp size words small room
  obtain ⟨ders', run, scaled'⟩ := scaled.exists_factors small room le_rfl fit
  rw [whole, run, ← scaled'.eq_derivativeRows]
  rfl

/-- **There is no table when a factor leaves its word.** -/
theorem derivativeRows?_eq_none (hp : p ≤ i + 1) (size : i + p < U.size)
    (words : U.size ≤ countLimit) (small : p < storageLimit) (room : count < storageLimit)
    (unfit : ¬FactorsFit Word.signed? p count) : U.derivativeRows? i p u count = none := by
  obtain ⟨ders, scaled, whole⟩ := exists_derivatives (u := u) hp size words small room
  rw [derivativeRows?, whole, scaled.factors_eq_none small room le_rfl unfit]
  rfl

end Rows

end RationalSpline.KnotVector
