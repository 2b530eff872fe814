/-
  RationalSpline.Sequence
  ───────────────────────
  READINGS OF A LIST.
-/

namespace RationalSpline.Sequence

variable {β : Type}

/-- Neighbouring entries. -/
def neighbours (values : List β) : List (β × β) := values.zip values.tail

@[simp] theorem length_neighbours (values : List β) :
    (neighbours values).length = values.length - 1 := by
  simp [neighbours]

/-- The last index whose entry passes the test. -/
def lastIndex? (test : β → Bool) : List β → Option Nat
  | [] => none
  | x :: xs =>
      match lastIndex? test xs with
      | some i => some (i + 1)
      | none => if test x then some 0 else none

theorem lastIndex?_eq_none_iff {test : β → Bool} {values : List β} :
    lastIndex? test values = none ↔ ∀ x ∈ values, test x = false := by
  induction values with
  | nil => simp [lastIndex?]
  | cons x xs ih =>
      cases rest : lastIndex? test xs with
      | some i => simpa [lastIndex?, rest] using fun _ => by simpa [rest] using ih
      | none => simpa [lastIndex?, rest] using fun _ => ih.1 rest

/-- The entry at the index found passes the test. -/
theorem getElem?_lastIndex? {test : β → Bool} {values : List β} {i : Nat}
    (h : lastIndex? test values = some i) : ∃ x, values[i]? = some x ∧ test x = true := by
  induction values generalizing i with
  | nil => simp [lastIndex?] at h
  | cons x xs ih =>
      cases rest : lastIndex? test xs with
      | some j =>
          obtain rfl : j + 1 = i := by simpa [lastIndex?, rest] using h
          simpa using ih rest
      | none =>
          simp only [lastIndex?, rest] at h
          split at h
          · obtain rfl : 0 = i := by simpa using h
            exact ⟨x, rfl, by assumption⟩
          · simp at h

theorem lastIndex?_lt {test : β → Bool} {values : List β} {i : Nat}
    (h : lastIndex? test values = some i) : i < values.length := by
  obtain ⟨x, hx, _⟩ := getElem?_lastIndex? h
  exact (List.getElem?_eq_some_iff.1 hx).1

end RationalSpline.Sequence
