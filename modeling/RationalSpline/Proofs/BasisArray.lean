/-
  RationalSpline.Proofs.BasisArray
  ────────────────────────────────
  THE ARRAY HOLDS THE BASIS FUNCTIONS.

  While the degree `j` is written over the degree before, the entries up to some place
  are new and the others old, and the share that is carried along is what the new row
  passes on there.  So the array that grows in place ends as the row that the recurrence
  gives.  It is there exactly if all knots of the row are (`basisInPlace?_eq`).

  No law of arithmetic is used.
-/
import RationalSpline.Proofs.DerivativeTable
import RationalSpline.KnotVector.BasisArray

namespace RationalSpline.KnotVector

variable {α : Type} [Scalar α] {U : KnotVector α} {i p : Nat} {u : α}

namespace BasisArray

/-- How far an array with room for the degree `p` has grown: the first `r` entries are of degree
`j`, those behind them of the degree before. -/
structure Grown (U : KnotVector α) (i : Nat) (u : α) (p j r : Nat) (B : BasisArray α) :
    Prop where
  /-- The room for distances. -/
  length_below : B.below.length = p + 1
  length_above : B.above.length = p + 1
  /-- The room for basis functions. -/
  length_entries : B.entries.length = p + 1
  /-- The distances. -/
  below_eq : ∀ k, 1 ≤ k → k ≤ j → B.below.getD k 0 = U.below i u k
  above_eq : ∀ k, 1 ≤ k → k ≤ j → B.above.getD k 0 = U.above i u k
  /-- The entries that are written. -/
  new_eq : ∀ s < r, B.entries.getD s 0 = (U.basisRow i u j).getD s 0
  /-- The entries that are still to be read. -/
  old_eq : ∀ s, r ≤ s → s < j → B.entries.getD s 0 = (U.basisRow i u (j - 1)).getD s 0

theorem exists_start (U : KnotVector α) (i p : Nat) (u : α) :
    ∃ B : BasisArray α, start p = some B ∧ B.Grown U i u p 0 1 := by
  have inside : 0 < (List.replicate (p + 1) (0 : α)).length := by simp
  have put := Sequence.replace?_eq (i := 0) rfl inside (1 : α)
  refine ⟨_, by rw [start, put]; rfl, by simp, by simp, by simp,
    by omega, by omega, fun s hs => ?_, by omega⟩
  obtain rfl : s = 0 := by omega
  rw [Sequence.getD_set _ inside, if_pos rfl]
  rfl

/-- **One entry.** -/
theorem exists_raisePlace {j r : Nat} {B : BasisArray α} {saved : α} (hj : j ≤ p) (hr : r < j)
    (h : B.Grown U i u p j r)
    (carried : saved = U.passed i u j 0 0 (U.basisRow i u (j - 1)) r) :
    ∃ B' saved', raisePlace? j (B, saved) r = some (B', saved') ∧ B'.Grown U i u p j (r + 1)
      ∧ saved' = U.passed i u j 0 0 (U.basisRow i u (j - 1)) (r + 1) := by
  have above : Sequence.item? B.above ((r : Int) + 1) = some (U.above i u (r + 1)) := by
    rw [Sequence.item?_eq (show (r : Int) + 1 = (r + 1 : Nat) by omega)
      (by rw [h.length_above]; omega) 0, h.above_eq _ (by omega) (by omega)]
  have below : Sequence.item? B.below ((j : Int) - r) = some (U.below i u (j - r)) := by
    rw [Sequence.item?_eq (show (j : Int) - r = (j - r : Nat) by omega)
      (by rw [h.length_below]; omega) 0, h.below_eq _ (by omega) (by omega)]
  have inside : r < B.entries.length := by
    rw [h.length_entries]
    omega
  have old : Sequence.item? B.entries r = some ((U.basisRow i u (j - 1)).getD r 0) := by
    rw [Sequence.item?_eq rfl inside 0, h.old_eq r le_rfl hr]
  obtain ⟨entry, hentry⟩ : ∃ entry, entry
      = saved + U.above i u (r + 1) * ((U.basisRow i u (j - 1)).getD r 0 / U.support i u j r) :=
    ⟨_, rfl⟩
  have put := Sequence.replace?_eq (i := r) rfl inside entry
  refine ⟨⟨B.below, B.above, B.entries.set r entry⟩, _, ?_, ⟨h.length_below, h.length_above, ?_,
    h.below_eq, h.above_eq, fun s hs => ?_, fun s hs hs' => ?_⟩, rfl⟩
  · rw [hentry, support] at put
    simp only [raisePlace?, above, below, old, put, Option.bind_eq_bind, Option.bind_some,
      Option.pure_def, passed, support, hentry, zero_add]
  · rw [List.length_set, h.length_entries]
  · rw [Sequence.getD_set _ inside]
    split
    next same =>
      obtain ⟨m, rfl⟩ : ∃ m, j = m + 1 := ⟨j - 1, by omega⟩
      rw [same, basisRow, getD_raiseRow _ _ _ _ _ _ _ (by simpa using hr), zero_add, hentry,
          carried]
      rfl
    next other => exact h.new_eq s (by omega)
  · rw [Sequence.getD_set _ inside, if_neg (by omega)]
    exact h.old_eq s (by omega) hs'

/-- **One degree.** -/
theorem exists_addDegree {j : Nat} {B : BasisArray α} (hp : p ≤ i + 1) (size : i + p < U.size)
    (words : U.size ≤ countLimit) (h₁ : 1 ≤ j) (hj : j ≤ p) (h : B.Grown U i u p (j - 1) j) :
    ∃ B', addDegree? U i u B j = some B' ∧ B'.Grown U i u p j (j + 1) := by
  obtain ⟨next, low, high⟩ := row_words hp size words h₁ hj
  have insideBelow : j < B.below.length := by rw [h.length_below]; omega
  have insideAbove : j < B.above.length := by rw [h.length_above]; omega
  have below := Sequence.replace?_eq (i := j) rfl insideBelow (U.below i u j)
  have above := Sequence.replace?_eq (i := j) rfl insideAbove (U.above i u j)
  -- with the new distances, the row of the degree before is what is to be read
  have begun : Grown U i u p j 0
      { B with
        below := B.below.set j (U.below i u j), above := B.above.set j (U.above i u j) } :=
    ⟨by simpa using h.length_below, by simpa using h.length_above, h.length_entries,
      getD_set_distance insideBelow h.below_eq, getD_set_distance insideAbove h.above_eq,
      by omega, fun s _ hs => h.new_eq s hs⟩
  obtain ⟨⟨B₁, saved⟩, run, grown, carried⟩ := exists_foldlM (raisePlace? j) 0 j
    (fun r (state : BasisArray α × α) => Grown U i u p j r state.1
      ∧ state.2 = U.passed i u j 0 0 (U.basisRow i u (j - 1)) r)
    (s := (_, 0)) ⟨begun, rfl⟩ (by
      rintro r ⟨B₁, saved⟩ - hr ⟨grown, carried⟩
      obtain ⟨B₂, saved₂, step, rest⟩ := exists_raisePlace hj (by omega) grown carried
      exact ⟨(B₂, saved₂), step, rest⟩)
  rw [Nat.zero_add] at grown carried
  have inside : j < B₁.entries.length := by rw [grown.length_entries]; omega
  have put := Sequence.replace?_eq (i := j) rfl inside saved
  refine ⟨⟨B₁.below, B₁.above, B₁.entries.set j saved⟩, ?_, ⟨grown.length_below,
    grown.length_above, ?_, grown.below_eq, grown.above_eq, fun s hs => ?_, by omega⟩⟩
  · simp only [addDegree?, next, low, high, Option.bind_eq_bind, Option.bind_some,
      U.getElem?_values (show i + 1 - j < U.size by omega),
      U.getElem?_values (show i + j < U.size by omega)]
    rw [← KnotVector.below, ← KnotVector.above, below]
    simp only [above, run, put, Option.bind_some, Option.pure_def]
  · rw [List.length_set, grown.length_entries]
  · rw [Sequence.getD_set _ inside]
    split
    next same =>
      -- the last entry of a row is the share that is left
      obtain ⟨m, rfl⟩ : ∃ m, j = m + 1 := ⟨j - 1, by omega⟩
      have last := U.getD_raiseRow_length i u (m + 1) 0 0 (U.basisRow i u m)
      rw [length_basisRow] at last
      rw [same, basisRow, last]
      exact carried
    next other => exact grown.new_eq s (by omega)

/-- A degree needs its outermost two knots. -/
theorem of_addDegree?_eq_some {j : Nat} {B B' : BasisArray α}
    (h : addDegree? U i u B j = some B') : j ≤ i + 1 ∧ i + j < U.size := by
  simp only [addDegree?, Option.bind_eq_bind, Option.bind_eq_some_iff] at h
  obtain ⟨next, hnext, low, hlow, -, -, -, -, high, hhigh, last, hlast, -⟩ := h
  have next_eq := Word.of_unsigned?_eq_some hnext
  have low_eq := Word.of_unsigned?_eq_some hlow
  have high_eq := Word.of_unsigned?_eq_some hhigh
  obtain ⟨inside, -⟩ := List.getElem?_eq_some_iff.1 hlast
  have size : U.size = U.values.length := rfl
  omega

end BasisArray

/-- **The array grows to the row of basis functions**, if the knots of the row are there. -/
theorem exists_basisArray (there : U.hasBasis i p = true) (words : U.size ≤ countLimit) :
    U.basisInPlace? i p u = some (U.basisRow i u p) := by
  have fits : p = 0 ∨ (p ≤ i + 1 ∧ i + p < U.size) := of_decide_eq_true there
  obtain ⟨B₀, start, begun⟩ := BasisArray.exists_start U i p u
  obtain ⟨B, run, grown⟩ := exists_foldlM (BasisArray.addDegree? U i u) 1 p
    (fun j B => BasisArray.Grown U i u p (j - 1) j B) begun (fun j B low high grown =>
      BasisArray.exists_addDegree (by omega) (by omega) words low (by omega) grown)
  have whole : B.entries = U.basisRow i u p := by
    refine List.ext_getElem (by rw [grown.length_entries, length_basisRow]) fun s hs hs' => ?_
    have entry := grown.new_eq s (by rw [grown.length_entries] at hs; omega)
    rwa [List.getD_eq_getElem _ _ hs, Nat.add_sub_cancel_left,
      List.getD_eq_getElem _ _ hs'] at entry
  rw [basisInPlace?, start, Option.bind_eq_bind, Option.bind_some, run, Option.bind_some, whole]
  rfl

/-- **The array that grows in place is the row of basis functions**, and there is none where a knot
of the row is missing. -/
theorem basisInPlace?_eq (U : KnotVector α) (i p : Nat) (u : α) (words : U.size ≤ countLimit) :
    U.basisInPlace? i p u = U.basis? i p u := by
  by_cases there : U.hasBasis i p = true
  · rw [exists_basisArray there words, basis?, if_pos there]
  · have missing : ¬(p = 0 ∨ (p ≤ i + 1 ∧ i + p < U.size)) := fun e => there (decide_eq_true e)
    obtain ⟨q, rfl⟩ : ∃ q, p = q + 1 := ⟨p - 1, by omega⟩
    rw [basis?, if_neg there, basisInPlace?]
    refine Option.bind_eq_none_iff.2 fun B₀ _ => Option.bind_eq_none_iff.2 fun B run => ?_
    -- the last degree reads the knots that are missing
    rw [List.range'_1_concat, List.foldlM_append] at run
    obtain ⟨B₁, -, last⟩ := Option.bind_eq_some_iff.1 run
    rw [List.foldlM_cons] at last
    obtain ⟨B₂, step, -⟩ := Option.bind_eq_some_iff.1 last
    have := BasisArray.of_addDegree?_eq_some step
    omega

end RationalSpline.KnotVector
