/-
  RationalSpline.KnotVector.Uniform
  ─────────────────────────────────
  KNOT VECTORS OF EQUAL SPACING.

  `clampedUniform` repeats the end knots `order - 1` times, `periodicUniform`
  spaces every knot alike.  Both domains start at 0.
-/
import RationalSpline.KnotVector.Basic
import RationalSpline.Failure

namespace RationalSpline.KnotVector

variable {α : Type} [Scalar α]

/-- Clamped knots: the interior ones are multiples of `delta`. -/
def clampedUniform (order count : Nat) (delta : α) : KnotVector α :=
  ⟨(List.range (count + order - 2)).map fun i =>
    delta * ((min (i - (order - 2)) (count - order + 1) : Nat) : α)⟩

/-- Equally spaced knots, the first `order - 2` of them below 0. -/
def periodicUniform (order count : Nat) (delta : α) : KnotVector α :=
  ⟨(List.range (count + order - 2)).map fun (i : Nat) =>
    delta * ((i : α) - ((order - 2 : Nat) : α))⟩

@[simp] theorem size_clampedUniform (order count : Nat) (delta : α) :
    (clampedUniform order count delta).size = count + order - 2 := by
  simp [clampedUniform, size]

@[simp] theorem size_periodicUniform (order count : Nat) (delta : α) :
    (periodicUniform order count delta).size = count + order - 2 := by
  simp [periodicUniform, size]

/-- The clamped knots of a shape that has any. -/
def clampedUniform? (order count : Nat) (delta : α) : Option (KnotVector α) :=
  if order ≤ count ∧ 2 ≤ count + order ∧ (count + order = 2 ∨ 2 ≤ order)
      ∧ count + order < storageLimit then
    some (clampedUniform order count delta)
  else none

/-- The equally spaced knots of a shape that has any. -/
def periodicUniform? (order count : Nat) (delta : α) : Option (KnotVector α) :=
  if 2 ≤ order ∧ count + order < storageLimit then some (periodicUniform order count delta)
  else none

end RationalSpline.KnotVector
