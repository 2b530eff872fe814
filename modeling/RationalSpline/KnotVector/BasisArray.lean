/-
  RationalSpline.KnotVector.BasisArray
  ────────────────────────────────────
  BASIS FUNCTIONS IN ONE ARRAY.

  The row of basis functions grows in place: going up one degree overwrites each entry
  by its share and the share that the entry before passes on, and what is left at the end
  becomes the new entry.  The distances from the knots around the span grow with it.

  An index outside an array, a word or the knots gives `none`.
-/
import RationalSpline.Checked
import RationalSpline.KnotVector.Basis

namespace RationalSpline.KnotVector

variable {α : Type} [Scalar α]

/-- The distances from the knots around a span, and the row that grows over them. -/
structure BasisArray (α : Type) where
  /-- The distances from the knots below, from index 1 on. -/
  below : List α
  /-- The distances from the knots above, from index 1 on. -/
  above : List α
  /-- The basis functions. -/
  entries : List α

namespace BasisArray

/-- The row of degree 0, with room for the degree `p`. -/
def start (p : Nat) : Option (BasisArray α) := do
  let entries ← Sequence.replace? (List.replicate (p + 1) 0) 0 1
  return ⟨List.replicate (p + 1) 0, List.replicate (p + 1) 0, entries⟩

/-- Entry `r` of the degree `j`; `saved` is the share that the entry before passes on. -/
def raisePlace? (j : Nat) (state : BasisArray α × α) (r : Nat) : Option (BasisArray α × α) := do
  let (B, saved) := state
  let above ← Sequence.item? B.above (r + 1)
  let below ← Sequence.item? B.below (j - r)
  let share := (← Sequence.item? B.entries r) / (above + below)
  let entries ← Sequence.replace? B.entries r (saved + above * share)
  return ({ B with entries }, below * share)

/-- The row of degree `j` on the span `i`. -/
def addDegree? (U : KnotVector α) (i : Nat) (u : α) (B : BasisArray α) (j : Nat) :
    Option (BasisArray α) := do
  let next ← Word.unsigned? (i + 1)
  let low ← U.values[← Word.unsigned? (next - j)]?
  let below ← Sequence.replace? B.below j (u - low)
  let high ← U.values[← Word.unsigned? (i + j)]?
  let above ← Sequence.replace? B.above j (high - u)
  let (B, saved) ← (List.range' 0 j).foldlM (raisePlace? j) ({ B with below, above }, 0)
  let entries ← Sequence.replace? B.entries j saved
  return { B with entries }

end BasisArray

/-- The basis functions of degree `p` on the span `i`, computed in place. -/
def basisInPlace? (U : KnotVector α) (i p : Nat) (u : α) : Option (List α) := do
  let B ← (List.range' 1 p).foldlM (BasisArray.addDegree? U i u) (← BasisArray.start p)
  return B.entries

end RationalSpline.KnotVector
