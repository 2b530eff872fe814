/-
  RationalSpline.KnotVector.Basis
  ───────────────────────────────
  BASIS FUNCTIONS ON A SPAN.

  On the span `i` of a padded knot vector, `p + 1` basis functions of degree `p`
  do not vanish: those with the indices `i - p, …, i`.  `basisRow p` lists their
  values at `u`; it grows from degree 0 by the triangular recurrence, whose
  divisors are the lengths of the supports of one degree less.

  The knots below and above the span enter through two distances only:

      below i u m  =  u - U (i + 1 - m)
      above i u m  =  U (i + m) - u
-/
import RationalSpline.KnotVector.Basic

namespace RationalSpline.KnotVector

variable {α : Type} [Scalar α]

/-- The distance of `u` from the `m`-th knot below the span. -/
def below (U : KnotVector α) (i : Nat) (u : α) (m : Nat) : α := u - U.knot (i + 1 - m)

/-- The distance of `u` from the `m`-th knot above the span. -/
def above (U : KnotVector α) (i : Nat) (u : α) (m : Nat) : α := U.knot (i + m) - u

/-- The length of the support that carries entry `r` of the degree `j - 1`. -/
def support (U : KnotVector α) (i : Nat) (u : α) (j r : Nat) : α :=
  U.above i u (r + 1) + U.below i u (j - r)

/-- The entries from `r` on of the row of degree `j`, from those of the row of
degree `j - 1`; `saved` is the share that the entry before passes on. -/
def raiseRow (U : KnotVector α) (i : Nat) (u : α) (j : Nat) (saved : α) (r : Nat) :
    List α → List α
  | [] => [saved]
  | b :: bs =>
      let share := b / U.support i u j r
      (saved + U.above i u (r + 1) * share)
        :: raiseRow U i u j (U.below i u (j - r) * share) (r + 1) bs

/-- The values at `u` of the basis functions of degree `p` on the span `i`. -/
def basisRow (U : KnotVector α) (i : Nat) (u : α) : Nat → List α
  | 0 => [1]
  | j + 1 => U.raiseRow i u (j + 1) 0 0 (basisRow U i u j)

@[simp] theorem length_raiseRow (U : KnotVector α) (i : Nat) (u : α) (j : Nat) (saved : α)
    (r : Nat) (row : List α) :
    (U.raiseRow i u j saved r row).length = row.length + 1 := by
  induction row generalizing saved r with
  | nil => rfl
  | cons b bs ih => simp [raiseRow, ih]

@[simp] theorem length_basisRow (U : KnotVector α) (i : Nat) (u : α) (p : Nat) :
    (U.basisRow i u p).length = p + 1 := by
  induction p with
  | zero => rfl
  | succ p ih => simp [basisRow, ih]

/-- All knots that a row of degree `p` on the span `i` depends on are there. -/
def hasBasis (U : KnotVector α) (i p : Nat) : Bool :=
  decide (p = 0 ∨ (p ≤ i + 1 ∧ i + p < U.size))

/-- The values at `u`, if their knots are there. -/
def basis? (U : KnotVector α) (i p : Nat) (u : α) : Option (List α) :=
  if U.hasBasis i p then some (U.basisRow i u p) else none

end RationalSpline.KnotVector
