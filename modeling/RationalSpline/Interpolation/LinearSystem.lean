/-
  RationalSpline.Interpolation.LinearSystem
  ─────────────────────────────────────────
  LINEAR SYSTEMS.

  Elimination with partial pivoting, on rows that carry their right-hand side.
  The right-hand side of a row is a point, so all coordinates are solved at once.
  The system is singular only when a pivot is exactly zero.
-/
import RationalSpline.Point

namespace RationalSpline

/-- An equation: coefficients of the unknowns, and the value of their combination. -/
structure Equation (α : Type) where
  /-- One coefficient for each unknown left. -/
  coefficients : List α
  /-- The right-hand side. -/
  value : Point α
  deriving Repr, DecidableEq

namespace Equation

variable {α : Type} [Scalar α]

/-- The coefficient of the first unknown. -/
def lead (e : Equation α) : α := e.coefficients.headD 0

/-- The equation without its first unknown. -/
def tail (e : Equation α) : Equation α := ⟨e.coefficients.tail, e.value⟩

/-- Every number of the equation is finite. -/
def isFinite [Precision α] (e : Equation α) : Bool :=
  e.coefficients.all Precision.isFinite && e.value.all Precision.isFinite

/-- Subtract a multiple of the pivot equation, so that the first unknown drops out;
`inverse` is the reciprocal of the pivot.  Zero times a `finite` pivot equation
subtracts nothing. -/
def eliminate (pivot : Equation α) (finite : Bool) (inverse : α) (e : Equation α) :
    Equation α :=
  let factor := e.lead * inverse
  if finite && factor == 0 then e.tail
  else
    { coefficients := List.zipWith (fun p x => -p * factor + x)
        pivot.coefficients.tail e.coefficients.tail
      value := List.zipWith (fun p x => -p * factor + x) pivot.value e.value }

/-! ## §1. Pivots. -/

/-- The index and the size of the largest leading coefficient, the first of several. -/
def largest (best : Nat × α) (i : Nat) : List (Equation α) → Nat × α
  | [] => best
  | e :: rest =>
      let size := Scalar.abs e.lead
      largest (if best.2 < size then (i, size) else best) (i + 1) rest

/-- The equation with the largest leading coefficient, and the others with the
first one moved to its place. -/
def choosePivot (e : Equation α) (rest : List (Equation α)) :
    Equation α × List (Equation α) :=
  match (largest (0, Scalar.abs e.lead) 1 rest).1 with
  | 0 => (e, rest)
  | i + 1 => (rest.getD i e, rest.set i e)

theorem length_choosePivot (e : Equation α) (rest : List (Equation α)) :
    (choosePivot e rest).2.length = rest.length := by
  unfold choosePivot
  split <;> simp

/-! ## §2. Elimination and substitution. -/

/-- An equivalent triangular system: each equation has one unknown less than the
one before.  A column of zeros is passed over. -/
def triangular [Precision α] : List (Equation α) → List (Equation α)
  | [] => []
  | e :: rest =>
      -- a column of zeros leaves its equation for the substitution to refuse
      let chosen := choosePivot e rest
      if chosen.1.lead == 0 then e :: triangular (rest.map tail)
      else
        let finite := chosen.1.isFinite
        let inverse := 1 / chosen.1.lead
        chosen.1 :: triangular (chosen.2.map (chosen.1.eliminate finite inverse))
termination_by equations => equations.length
decreasing_by
  all_goals simp [length_choosePivot]

@[simp] theorem length_triangular [Precision α] (equations : List (Equation α)) :
    (triangular equations).length = equations.length := by
  fun_induction triangular equations with
  | case1 => rfl
  | case2 e rest chosen _ ih => simpa using ih
  | case3 e rest chosen _ _ _ ih => simpa [chosen, length_choosePivot] using ih

/-- The value of the first unknown of an equation, given those of the others. -/
def firstUnknown (e : Equation α) (others : List (Point α)) : Point α :=
  Point.divide
    ((e.coefficients.tail.zip others).foldr
      (fun (a, x) value => List.zipWith (fun x b => -x * a + b) x value) e.value)
    e.lead

/-- Solve a triangular system from its last equation upwards. -/
def substitute? : List (Equation α) → Option (List (Point α))
  | [] => some []
  | e :: rest =>
      match substitute? rest with
      | none => none
      | some others =>
          if e.lead == 0 then none else some (e.firstUnknown others :: others)

theorem length_substitute? {equations : List (Equation α)} {solution : List (Point α)}
    (h : substitute? equations = some solution) : solution.length = equations.length := by
  induction equations generalizing solution with
  | nil => simp_all [substitute?]
  | cons e rest ih =>
      simp only [substitute?] at h
      split at h
      · simp at h
      · next others found =>
          split at h
          · simp at h
          · obtain rfl := Option.some.inj h
            simp [ih found]

/-- The solution of a square system, unless a pivot vanishes.  Equations between
points without coordinates are always solvable. -/
def solve? [Precision α] (equations : List (Equation α)) : Option (List (Point α)) :=
  if equations.all fun e => e.value.isEmpty then some (equations.map fun _ => [])
  else substitute? (triangular equations)

theorem length_solve? [Precision α] {equations : List (Equation α)}
    {solution : List (Point α)}
    (h : solve? equations = some solution) : solution.length = equations.length := by
  unfold solve? at h
  split at h
  · obtain rfl := Option.some.inj h
    simp
  · rw [length_substitute? h, length_triangular]

end Equation

end RationalSpline
