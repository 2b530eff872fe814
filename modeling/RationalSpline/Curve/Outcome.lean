/-
  RationalSpline.Curve.Outcome
  ────────────────────────────
  OUTCOMES OF EDITS.

  An edit works on a curve in place.  Its outcome says what the curve is afterwards
  and why the edit failed, if it did.  Edits of several steps stop at the first step
  that fails and keep what the steps before it have done.
-/
import RationalSpline.Curve.Basic
import RationalSpline.Failure

namespace RationalSpline.Curve

variable {α : Type}

/-- The curve after an edit, and why it failed if it did.  A failed edit can leave
a curve behind that is no longer the one before. -/
structure Outcome (α : Type) where
  /-- The curve afterwards. -/
  curve : Curve α
  /-- Why the edit failed. -/
  failure : Option (Failure α) := none

namespace Outcome

/-- An edit that either succeeds or leaves the curve as it was. -/
def ofResult (before : Curve α) : Except (Failure α) (Curve α) → Outcome α
  | .ok after => ⟨after, none⟩
  | .error e => ⟨before, some e⟩

/-- One step, and another if the first one did not fail. -/
def andThen (first : Outcome α) (next : Curve α → Outcome α) : Outcome α :=
  match first.failure with
  | none => next first.curve
  | some _ => first

@[simp] theorem ofResult_ok (before after : Curve α) :
    ofResult before (.ok after) = ⟨after, none⟩ := rfl

@[simp] theorem ofResult_error (before : Curve α) (e : Failure α) :
    ofResult before (.error e) = ⟨before, some e⟩ := rfl

theorem ofResult_eq_none_iff {before after : Curve α} {result : Except (Failure α) (Curve α)} :
    ofResult before result = ⟨after, none⟩ ↔ result = .ok after := by
  cases result <;> simp [ofResult]

theorem ofResult_eq_some_iff {before after : Curve α} {result : Except (Failure α) (Curve α)}
    {e : Failure α} :
    ofResult before result = ⟨after, some e⟩ ↔ before = after ∧ result = .error e := by
  cases result <;> simp [ofResult]

/-- A single step that fails leaves the curve as it was. -/
theorem of_failure {before : Curve α} {result : Except (Failure α) (Curve α)} {e : Failure α}
    (failed : (ofResult before result).failure = some e) :
    (ofResult before result).curve = before ∧ result = .error e := by
  cases result with
  | ok after => cases failed
  | error f =>
      cases failed
      exact ⟨rfl, rfl⟩

@[simp] theorem andThen_none (c : Curve α) (next : Curve α → Outcome α) :
    andThen ⟨c, none⟩ next = next c := rfl

@[simp] theorem andThen_some (c : Curve α) (e : Failure α) (next : Curve α → Outcome α) :
    andThen ⟨c, some e⟩ next = ⟨c, some e⟩ := rfl

end Outcome

end RationalSpline.Curve
