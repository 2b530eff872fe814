/-
  RationalSpline.Checked
  ──────────────────────
  CHECKED WORDS, CHECKED LISTS AND CHECKED TABLES.

  A word holds 64 bits and a list ends.  An algorithm that works on tables in place
  meets both limits with every index it computes, so its indices here are integers
  that may have left either range: what leaves it gives `none`, and a loop of such
  steps gives `none` as soon as one of them does.

  `exists_foldlM` is the way to reason about these loops: an invariant that every step
  keeps, with a result, is kept by the loop, with a result.
-/
import RationalSpline.Failure

namespace RationalSpline

/-! ## §1. Words. -/

namespace Word

/-- Signed words lie between this bound and its negative. -/
def signedLimit : Nat := 9223372036854775808

/-- The number as an unsigned word. -/
def unsigned? (n : Int) : Option Nat :=
  if 0 ≤ n ∧ n < countLimit then some n.toNat else none

/-- The number as a signed word. -/
def signed? (n : Int) : Option Int :=
  if -signedLimit ≤ n ∧ n < signedLimit then some n else none

theorem unsigned?_eq {n : Int} {m : Nat} (h : n = m) (small : m < countLimit) :
    unsigned? n = some m := by
  subst h
  rw [unsigned?, if_pos ⟨by omega, by omega⟩, Int.toNat_natCast]

theorem of_unsigned?_eq_some {n : Int} {m : Nat} (h : unsigned? n = some m) : n = m := by
  unfold unsigned? at h
  split at h
  · have := Option.some.inj h
    omega
  · cases h

theorem signed?_eq {n : Int} (low : -9223372036854775808 ≤ n)
    (high : n < 9223372036854775808) : signed? n = some n := by
  rw [signed?, if_pos ⟨by simpa [signedLimit] using low, by simpa [signedLimit] using high⟩]

theorem signed?_natCast {n : Nat} (h : n < signedLimit) : signed? n = some (n : Int) := by
  have limit : signedLimit = 9223372036854775808 := rfl
  exact signed?_eq (by omega) (by omega)

theorem signed?_eq_none {n : Nat} (h : signedLimit ≤ n) : signed? n = none := by
  rw [signed?, if_neg]
  omega

end Word

/-! ## §2. Lists. -/

namespace Sequence

variable {β : Type}

/-- The entry at an integer index. -/
def item? (values : List β) (i : Int) : Option β :=
  if 0 ≤ i then values[i.toNat]? else none

/-- The list with another entry at an integer index. -/
def replace? (values : List β) (i : Int) (x : β) : Option (List β) :=
  if 0 ≤ i ∧ i < values.length then some (values.set i.toNat x) else none

theorem item?_eq {values : List β} {i : Int} {k : Nat} (at_ : i = k)
    (h : k < values.length) (d : β) : item? values i = some (values.getD k d) := by
  subst at_
  rw [item?, if_pos (by omega), Int.toNat_natCast, List.getD_eq_getElem?_getD,
      List.getElem?_eq_getElem h, Option.getD_some]

theorem replace?_eq {values : List β} {i : Int} {k : Nat} (at_ : i = k)
    (h : k < values.length) (x : β) : replace? values i x = some (values.set k x) := by
  subst at_
  rw [replace?, if_pos ⟨by omega, by omega⟩, Int.toNat_natCast]

theorem getD_set (values : List β) {i : Nat} (h : i < values.length) (x : β) (k : Nat) (d : β) :
    (values.set i x).getD k d = if k = i then x else values.getD k d := by
  rw [List.getD_eq_getElem?_getD, List.getElem?_set, List.getD_eq_getElem?_getD]
  by_cases same : k = i
  · simp [same, h]
  · simp [same, Ne.symm same]

end Sequence

/-! ## §3. Tables. -/

/-- A table of numbers, row by row. -/
abbrev Grid (α : Type) := List (List α)

namespace Grid

variable {α : Type}

/-- The cell in row `r` and column `c`. -/
def at? (g : Grid α) (r c : Int) : Option α := do
  let row ← Sequence.item? g r
  Sequence.item? row c

/-- The table with another number in a cell. -/
def put? (g : Grid α) (r c : Int) (x : α) : Option (Grid α) := do
  let row ← Sequence.item? g r
  let row ← Sequence.replace? row c x
  Sequence.replace? g r row

/-- A table of zeros. -/
def zeros [Zero α] (rows columns : Nat) : Grid α :=
  List.replicate rows (List.replicate columns 0)

/-- The number in a cell, 0 outside the table. -/
def cell [Zero α] (g : Grid α) (r c : Nat) : α := (g.getD r []).getD c 0

/-- A table with so many rows, all of them with so many columns. -/
structure Sized (g : Grid α) (rows columns : Nat) : Prop where
  /-- The number of rows. -/
  length_eq : g.length = rows
  /-- The length of a row. -/
  length_row : ∀ r < rows, (g.getD r []).length = columns

theorem sized_zeros [Zero α] (rows columns : Nat) :
    (zeros rows columns : Grid α).Sized rows columns :=
  ⟨by simp [zeros], fun r hr => by simp [zeros, hr]⟩

variable {g : Grid α} {rows columns r c : Nat} {i j : Int}

/-- Tables of one size with the same cells are the same. -/
theorem Sized.eq_of_cell [Zero α] {g' : Grid α} (h : g.Sized rows columns)
    (h' : g'.Sized rows columns) (same : ∀ r < rows, ∀ c < columns, g.cell r c = g'.cell r c) :
    g = g' := by
  refine List.ext_getElem (by rw [h.length_eq, h'.length_eq]) fun r hr hr' => ?_
  have row : r < rows := by rwa [← h.length_eq]
  have size := h.length_row r row
  have size' := h'.length_row r row
  simp only [List.getD_eq_getElem?_getD, List.getElem?_eq_getElem hr,
    List.getElem?_eq_getElem hr', Option.getD_some] at size size'
  refine List.ext_getElem (by rw [size, size']) fun c hc hc' => ?_
  simpa [cell, List.getD_eq_getElem?_getD, hr, hr', hc, hc'] using same r row c (by omega)

/-- A reading inside the table has a result. -/
theorem Sized.at?_eq [Zero α] (h : g.Sized rows columns) (hr : i = r) (hc : j = c)
    (row : r < rows) (column : c < columns) : g.at? i j = some (g.cell r c) := by
  rw [at?, Sequence.item?_eq hr (by rwa [h.length_eq]) []]
  exact Sequence.item?_eq hc (by rwa [h.length_row r row]) 0

/-- A writing inside the table has a result, which differs in that cell only. -/
theorem Sized.put?_eq [Zero α] (h : g.Sized rows columns) (hr : i = r) (hc : j = c)
    (row : r < rows) (column : c < columns) (x : α) :
    ∃ g' : Grid α, g.put? i j x = some g' ∧ g'.Sized rows columns
      ∧ ∀ r' c', g'.cell r' c' = if r' = r ∧ c' = c then x else g.cell r' c' := by
  have inside : r < g.length := by rwa [h.length_eq]
  have width : c < (g.getD r []).length := by rwa [h.length_row r row]
  refine ⟨g.set r ((g.getD r []).set c x), ?_, ⟨by rw [List.length_set, h.length_eq], ?_⟩, ?_⟩
  · rw [put?, Sequence.item?_eq hr inside []]
    simp only [Option.bind_eq_bind, Option.bind_some]
    rw [Sequence.replace?_eq hc width, Option.bind_some, Sequence.replace?_eq hr inside]
  · intro r' hr'
    rw [Sequence.getD_set _ inside]
    split
    · rw [List.length_set, h.length_row r row]
    · exact h.length_row r' hr'
  · intro r' c'
    rw [cell, Sequence.getD_set _ inside]
    by_cases same : r' = r
    · subst same
      rw [if_pos rfl, Sequence.getD_set _ width]
      simp [cell]
    · simp [same, cell]

end Grid

/-! ## §4. Loops. -/

/-- **A loop whose steps keep an invariant has a result, and the invariant holds of it.** -/
theorem exists_foldlM {σ : Type} (step : σ → Nat → Option σ) (first n : Nat)
    (Inv : Nat → σ → Prop) {s : σ} (start : Inv first s)
    (keep : ∀ k s, first ≤ k → k < first + n → Inv k s →
      ∃ s', step s k = some s' ∧ Inv (k + 1) s') :
    ∃ s', (List.range' first n).foldlM step s = some s' ∧ Inv (first + n) s' := by
  induction n generalizing first s with
  | zero => exact ⟨s, rfl, start⟩
  | succ n ih =>
      obtain ⟨s₁, done, held⟩ := keep first s (Nat.le_refl first) (by omega) start
      obtain ⟨s', rest, final⟩ := ih (first + 1) held fun k s low high =>
        keep k s (by omega) (by omega)
      refine ⟨s', ?_, by rwa [show first + (n + 1) = first + 1 + n by omega]⟩
      rw [List.range'_succ, List.foldlM_cons, done]
      exact rest

end RationalSpline
