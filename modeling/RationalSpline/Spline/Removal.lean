/-
  RationalSpline.Spline.Removal
  ─────────────────────────────
  KNOT REMOVAL.

  Removal solves the equations of insertion for the control points before it.
  They are swept from both ends of the affected range towards its middle.  When
  their number is odd the sweeps overlap in one point, which becomes the average
  of both answers, so a knot that is not removable changes the spline.
-/
import RationalSpline.Spline.Basic

namespace RationalSpline.Spline

variable {α : Type} [Scalar α]

/-- The position of `u` in the support that starts at the knot `i`. -/
def ratio (U : KnotVector α) (p : Nat) (u : α) (i : Nat) : α :=
  (u - U.knot i) / (U.knot (i + (p + 1)) - U.knot i)

/-- Solve for the points from `i` upwards, each from the solution before it. -/
def sweepUp (U : KnotVector α) (p : Nat) (u : α) (i : Nat) (before : Point α) :
    List (Point α) → List (Point α)
  | [] => []
  | q :: qs =>
      let a := ratio U p u i
      let solved := Point.divide (Point.sub q (Point.scale before (1 - a))) a
      solved :: sweepUp U p u (i + 1) solved qs

/-- Solve for the points from `j` downwards, each from the solution after it. -/
def sweepDown (U : KnotVector α) (p : Nat) (u : α) (j : Nat) (after : Point α) :
    List (Point α) → List (Point α)
  | [] => []
  | q :: qs =>
      let a := ratio U p u j
      let solved := Point.divide (Point.sub q (Point.scale after a)) (1 - a)
      solved :: sweepDown U p u (j - 1) solved qs

@[simp] theorem length_sweepUp (U : KnotVector α) (p : Nat) (u : α) (i : Nat)
    (before : Point α) (points : List (Point α)) :
    (sweepUp U p u i before points).length = points.length := by
  induction points generalizing i before with
  | nil => rfl
  | cons q qs ih => simp [sweepUp, ih]

@[simp] theorem length_sweepDown (U : KnotVector α) (p : Nat) (u : α) (j : Nat)
    (after : Point α) (points : List (Point α)) :
    (sweepDown U p u j after points).length = points.length := by
  induction points generalizing j after with
  | nil => rfl
  | cons q qs ih => simp [sweepDown, ih]

/-- The replacement of the control points `first … last`, one fewer. -/
def unblend (S : Spline α) (u : α) (first last : Nat) : List (Point α) :=
  let steps := (last - first + 1) / 2
  let up := sweepUp S.knots S.degree u first (S.points.getD (first - 1) [])
    ((S.points.drop first).take steps)
  let down := sweepDown S.knots S.degree u last (S.points.getD (last + 1) [])
    ((S.points.drop (last + 1 - steps)).take steps).reverse
  if (last - first) % 2 = 0 then up ++ down.reverse
  else
    -- both sweeps have solved for the point in the middle
    let seam := Point.scale (Point.add (up.getLastD []) (down.getLastD [])) Scalar.half
    up.dropLast ++ seam :: down.dropLast.reverse

theorem length_unblend {S : Spline α} (u : α) {first last : Nat} (h : first ≤ last)
    (inside : last < S.points.length) : (S.unblend u first last).length = last - first := by
  simp only [unblend]
  split <;> simp <;> omega

/-- The spline without the knot at `r`, the last of its run of equal knots. -/
def remove (S : Spline α) (r : Nat) : Spline α :=
  let u := S.knots.knot r
  let first := r - S.degree
  let last := r - S.knots.count u
  { degree := S.degree
    knots := ⟨S.knots.values.eraseIdx r⟩
    points := S.points.take first ++ S.unblend u first last ++ S.points.drop (last + 1) }

/-- The knot at `r` has control points on both sides and no more than full
multiplicity. -/
def removable (S : Spline α) (r : Nat) : Bool :=
  let s := S.knots.count (S.knots.knot r)
  decide (S.degree < r ∧ r < S.knots.size ∧ s ≤ S.degree ∧ r - s + 1 < S.points.length)

theorem length_points_remove {S : Spline α} {r : Nat} (h : S.removable r = true) :
    (S.remove r).points.length = S.points.length - 1 := by
  simp only [removable, decide_eq_true_eq] at h
  simp only [remove, List.length_append, List.length_take, List.length_drop]
  rw [length_unblend] <;> omega

theorem size_knots_remove {S : Spline α} {r : Nat} (h : S.removable r = true) :
    (S.remove r).knots.size = S.knots.size - 1 := by
  simp only [removable, decide_eq_true_eq] at h
  exact List.length_eraseIdx_of_lt h.2.1

/-- The spline without the knot at `r`, where that is defined. -/
def remove? (S : Spline α) (r : Nat) : Option (Spline α) :=
  if S.removable r then some (S.remove r) else none

end RationalSpline.Spline
