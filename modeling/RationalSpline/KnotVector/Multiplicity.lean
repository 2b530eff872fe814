/-
  RationalSpline.KnotVector.Multiplicity
  ──────────────────────────────────────
  REPEATED KNOTS.

  There are two ways to count repetitions.  `runs` joins neighbours that are
  equal; `multiplicities` joins a knot to a group while it stays within the
  spacing of the numbers at one from the first knot of the group.
-/
import RationalSpline.Checked
import RationalSpline.KnotVector.Basic

namespace RationalSpline

/-- A knot value and the number of times it is repeated. -/
structure KnotMultiplicity (α : Type) where
  /-- The value. -/
  knot : α
  /-- How often it occurs. -/
  multiplicity : Nat
  deriving Repr, DecidableEq

/-- The knot, written as often as it occurs. -/
def KnotMultiplicity.occurrences {α : Type} (m : KnotMultiplicity α) : List α :=
  List.replicate m.multiplicity m.knot

@[simp] theorem KnotMultiplicity.length_occurrences {α : Type} (m : KnotMultiplicity α) :
    m.occurrences.length = m.multiplicity := by
  simp [occurrences]

/-- One occurrence more. -/
def KnotMultiplicity.increment {α : Type} (m : KnotMultiplicity α) : KnotMultiplicity α :=
  { m with multiplicity := m.multiplicity + 1 }

/-- One occurrence more, if a word holds their number. -/
def KnotMultiplicity.increment? {α : Type} (m : KnotMultiplicity α) :
    Option (KnotMultiplicity α) :=
  (Word.unsigned? (m.multiplicity + 1)).map fun n => { m with multiplicity := n }

@[simp] theorem KnotMultiplicity.multiplicity_increment {α : Type} (m : KnotMultiplicity α) :
    m.increment.multiplicity = m.multiplicity + 1 := rfl

namespace KnotVector

variable {α : Type} [Scalar α]

/-- Maximal runs of equal neighbours, each by its first member. -/
def runs : List α → List (KnotMultiplicity α)
  | [] => []
  | k :: ks =>
      match runs ks with
      | [] => [⟨k, 1⟩]
      | m :: ms =>
          if k == m.knot then ⟨k, m.multiplicity + 1⟩ :: ms else ⟨k, 1⟩ :: m :: ms

/-- The groups of a list, the first of which has begun with `current`. -/
def groupFrom [Precision α] (current : KnotMultiplicity α) :
    List α → List (KnotMultiplicity α)
  | [] => [current]
  | k :: ks =>
      if Precision.epsilon < Scalar.abs (k - current.knot) then
        current :: groupFrom ⟨k, 1⟩ ks
      else groupFrom current.increment ks

/-- The knots grouped within machine precision, each group by its first member. -/
def multiplicities [Precision α] (U : KnotVector α) : List (KnotMultiplicity α) :=
  match U.values with
  | [] => []
  | k :: ks => groupFrom ⟨k, 1⟩ ks

/-- The groups of a list, their members counted in words. -/
def groupFrom? [Precision α] (current : KnotMultiplicity α) :
    List α → Option (List (KnotMultiplicity α))
  | [] => some [current]
  | k :: ks =>
      if Precision.epsilon < Scalar.abs (k - current.knot) then
        (groupFrom? ⟨k, 1⟩ ks).map (current :: ·)
      else current.increment?.bind fun m => groupFrom? m ks

/-- The groups of the knots, their members counted in words. -/
def multiplicities? [Precision α] (U : KnotVector α) : Option (List (KnotMultiplicity α)) :=
  match U.values with
  | [] => some []
  | k :: ks => groupFrom? ⟨k, 1⟩ ks

theorem length_flatMap_runs (values : List α) :
    ((runs values).flatMap KnotMultiplicity.occurrences).length = values.length := by
  induction values with
  | nil => rfl
  | cons k ks ih =>
      simp only [runs, List.length_cons, ← ih]
      split
      · next rest => simp [rest]
      · next m ms rest =>
          simp only [rest]
          split <;> simp only [List.flatMap_cons, List.length_append,
            KnotMultiplicity.length_occurrences] <;> omega

/-- Where equal numbers are the same number, the runs hold all knots in order. -/
theorem flatMap_runs [LawfulBEq α] (values : List α) :
    (runs values).flatMap KnotMultiplicity.occurrences = values := by
  induction values with
  | nil => rfl
  | cons k ks ih =>
      simp only [runs]
      split
      · next rest => simpa [rest, KnotMultiplicity.occurrences] using ih
      · next m ms rest =>
          rw [rest] at ih
          split
          · next same =>
              obtain rfl : k = m.knot := eq_of_beq same
              simpa [KnotMultiplicity.occurrences, List.replicate_succ] using ih
          · simpa [KnotMultiplicity.occurrences] using ih

theorem length_flatMap_groupFrom [Precision α] (current : KnotMultiplicity α)
    (values : List α) :
    ((groupFrom current values).flatMap KnotMultiplicity.occurrences).length
      = current.multiplicity + values.length := by
  induction values generalizing current with
  | nil => simp [groupFrom]
  | cons k ks ih =>
      unfold groupFrom
      split <;> simp only [List.flatMap_cons, List.length_append, ih, List.length_cons,
        KnotMultiplicity.length_occurrences, KnotMultiplicity.multiplicity_increment] <;> omega

/-- Every knot belongs to one group. -/
theorem length_flatMap_multiplicities [Precision α] (U : KnotVector α) :
    (U.multiplicities.flatMap KnotMultiplicity.occurrences).length = U.size := by
  unfold multiplicities size
  split
  · next none => simp [none]
  · next some =>
      simp only [some, length_flatMap_groupFrom, List.length_cons]
      omega

/-- The size of the run of equal knots around an index. -/
def multiplicityAt (U : KnotVector α) (i : Nat) : Nat :=
  ((U.values.take i).reverse.takeWhile (· == U.knot i)).length
    + ((U.values.drop i).takeWhile (· == U.knot i)).length

/-- The size of the run around an index that has a knot. -/
def multiplicityAt? (U : KnotVector α) (i : Nat) : Option Nat :=
  if i < U.size then some (U.multiplicityAt i) else none

end KnotVector

end RationalSpline
