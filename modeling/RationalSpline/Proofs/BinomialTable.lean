/-
  RationalSpline.Proofs.BinomialTable
  ───────────────────────────────────
  WHAT A TABLE OF BINOMIAL COEFFICIENTS REMEMBERS DOES NOT SHOW.

  Pascal's rule without a memory fixes what every reading should give (`pascal`).  A table
  agrees with the rule when it remembers nothing else; then a reading gives what the rule
  gives, and the table still agrees, also after the two readings inside it, the second of
  which already sees what the first has left behind.

  No law of arithmetic is used for that: over rounded numbers too, a value does not depend
  on the readings before.  Over exact numbers the rule gives the binomial coefficients.
-/
import RationalSpline.Proofs.Exact
import RationalSpline.Binomial

namespace RationalSpline

namespace BinomialTable

variable {α : Type} [Scalar α]

/-! ## §1. The rule without a memory. -/

/-- The coefficient at place `k` of row `n`, by the nearer of its two symmetric places. -/
def pascal : Nat → Nat → α
  | 0, k => if k = 0 then 1 else 0
  | n + 1, k =>
      if n + 1 < k then 0
      else if k = 0 ∨ k = n + 1 then 1
      else pascal n (min k (n + 1 - k)) + pascal n (min k (n + 1 - k) - 1)

/-- Between the edges of a row, both symmetric places have the same coefficient. -/
theorem pascal_near {n k : Nat} (within : ¬n + 1 < k) (inner : ¬(k = 0 ∨ k = n + 1)) :
    (pascal (n + 1) (min k (n + 1 - k)) : α) = pascal (n + 1) k := by
  have near : min (min k (n + 1 - k)) (n + 1 - min k (n + 1 - k)) = min k (n + 1 - k) := by
    omega
  rw [pascal, pascal, if_neg (by omega), if_neg (by omega), if_neg within, if_neg inner, near]

/-! ## §2. One reading. -/

/-- The table remembers only what the rule gives. -/
def Agrees (table : BinomialTable α) : Prop :=
  ∀ (n k : Nat) (value : α), table.known[(n, k)]? = some value → value = pascal n k

theorem agrees_empty : (empty : BinomialTable α).Agrees := by
  intro n k value found
  simp [empty] at found

/-- What is written by the rule leaves the table in agreement with it. -/
theorem Agrees.insert {table : BinomialTable α} (h : table.Agrees) {n k : Nat} {value : α}
    (right : value = pascal n k) : Agrees ⟨table.known.insert (n, k) value⟩ := by
  intro n' k' value' found
  rw [Std.HashMap.getElem?_insert] at found
  split at found
  · next same =>
      obtain ⟨rfl, rfl⟩ : n = n' ∧ k = k' := by simpa using same
      rw [← Option.some.inj found, right]
  · exact h n' k' value' found

/-- **A reading gives what the rule gives, and leaves the table in agreement with it.** -/
theorem Agrees.get {table : BinomialTable α} (h : table.Agrees) (n k : Nat) :
    (table.get n k).1 = pascal n k ∧ (table.get n k).2.Agrees := by
  -- on the row: the two readings inside are in the row above, the second of them in the
  -- table that the first leaves
  induction n generalizing table k with
  | zero => exact ⟨rfl, h⟩
  | succ n ih =>
      unfold BinomialTable.get
      split
      · next beyond => exact ⟨by rw [pascal, if_pos beyond], h⟩
      · next within =>
          split
          · next edge => exact ⟨by rw [pascal, if_neg within, if_pos edge], h⟩
          · next inner =>
              have near := pascal_near (α := α) within inner
              dsimp only
              split
              · next value known => exact ⟨by rw [h _ _ _ known, near], h⟩
              · obtain ⟨right, agrees⟩ := ih h (min k (n + 1 - k))
                obtain ⟨left, agrees'⟩ := ih agrees (min k (n + 1 - k) - 1)
                have sum : (table.get n (min k (n + 1 - k))).1
                    + ((table.get n (min k (n + 1 - k))).2.get n (min k (n + 1 - k) - 1)).1
                      = pascal (n + 1) k := by
                  rw [right, left, pascal, if_neg within, if_neg inner]
                exact ⟨sum, agrees'.insert (sum.trans near.symm)⟩

/-! ## §3. Readings in a row. -/

/-- The table after some readings. -/
def after (table : BinomialTable α) (calls : List (Nat × Nat)) : BinomialTable α :=
  calls.foldl (fun table call => (table.get call.1 call.2).2) table

/-- Every table that readings lead to agrees with the rule. -/
theorem Agrees.after {table : BinomialTable α} (h : table.Agrees) (calls : List (Nat × Nat)) :
    (table.after calls).Agrees := by
  induction calls generalizing table with
  | nil => exact h
  | cons call rest ih => exact ih (h.get call.1 call.2).2

theorem Agrees.getAll {table : BinomialTable α} (h : table.Agrees) (calls : List (Nat × Nat)) :
    table.getAll calls = calls.map fun call => pascal call.1 call.2 := by
  induction calls generalizing table with
  | nil => rfl
  | cons call rest ih =>
      obtain ⟨value, agrees⟩ := h.get call.1 call.2
      rw [List.map_cons, ← value, ← ih agrees]
      rfl

theorem binomial_eq_pascal (n k : Nat) : (binomial n k : α) = pascal n k :=
  (agrees_empty.get n k).1

end BinomialTable

/-! ## §4. Exact numbers. -/

section Exact

open BinomialTable

variable {K : Type} [Field K] [LinearOrder K]

/-- Over exact numbers the rule gives the binomial coefficients. -/
theorem BinomialTable.pascal_eq_choose (n k : Nat) : (pascal n k : K) = (n.choose k : K) := by
  induction n generalizing k with
  | zero =>
      rw [pascal]
      split
      · next zero => simp [zero]
      · next pos => simp [Nat.choose_eq_zero_of_lt (Nat.pos_of_ne_zero pos)]
  | succ n ih =>
      rw [pascal]
      split
      · next beyond => simp [Nat.choose_eq_zero_of_lt beyond]
      · next within =>
          split
          · next edge => rcases edge with rfl | rfl <;> simp
          · next inner =>
              -- the nearer of the two symmetric places
              have near : (n + 1).choose (min k (n + 1 - k)) = (n + 1).choose k := by
                rcases Nat.le_total k (n + 1 - k) with le | le
                · rw [min_eq_left le]
                · rw [min_eq_right le, Nat.choose_symm (by omega)]
              obtain ⟨m, hm⟩ : ∃ m, min k (n + 1 - k) = m + 1 :=
                ⟨min k (n + 1 - k) - 1, by omega⟩
              rw [← near, ih, ih, hm, Nat.add_sub_cancel, Nat.choose_succ_succ, Nat.cast_add,
                  add_comm]

theorem binomial_eq (n k : Nat) : (binomial n k : K) = (n.choose k : K) := by
  rw [binomial_eq_pascal, pascal_eq_choose]

theorem getD_binomialRow {n k : Nat} (h : k ≤ n) :
    (binomialRow n : List K).getD k 0 = (n.choose k : K) := by
  rw [binomialRow, agrees_empty.getAll]
  simp [List.getD_eq_getElem?_getD, Nat.lt_succ_of_le h, pascal_eq_choose]

/-- **Readings do not depend on those before.**

Whatever readings a table has answered, the next ones have the answers that a table for each of
them alone would give, over any numbers, rounded or not: so it makes no difference whether the
shares of a raised polygon or the summands of a quotient's derivatives take theirs from one
table.  Over exact numbers every answer is the binomial coefficient, 0 beyond the row. -/
theorem getAll_history_independent :
    (∀ calls : List (Nat × Nat), (empty : BinomialTable K).getAll calls
        = calls.map fun call => (call.1.choose call.2 : K))
      ∧ (∀ (α : Type) [Scalar α] (before calls : List (Nat × Nat)),
        ((empty : BinomialTable α).after before).getAll calls
          = calls.map fun call => binomial call.1 call.2)
      ∧ ∀ (before : List (Nat × Nat)) (n k : Nat),
        (((empty : BinomialTable K).after before).get n k).1 = (n.choose k : K) := by
  refine ⟨fun calls => ?_, fun α _ before calls => ?_, fun before n k => ?_⟩
  · simp only [agrees_empty.getAll, pascal_eq_choose]
  · simp only [(agrees_empty.after before).getAll, binomial_eq_pascal]
  · rw [((agrees_empty.after before).get n k).1, pascal_eq_choose]

end Exact

end RationalSpline
