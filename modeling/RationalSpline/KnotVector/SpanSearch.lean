/-
  RationalSpline.KnotVector.SpanSearch
  ────────────────────────────────────
  THE SPAN OF A PARAMETER.

  On padded knots `U` and for control points `0 … n` of degree `p`, the span of
  `u` is an index `i` with `U i ≤ u < U (i + 1)`.  Parameters within machine
  precision of an end of the domain, or outside, get the first or the last span;
  the rest is found by bisection.
-/
import RationalSpline.Checked
import RationalSpline.KnotVector.Basic

namespace RationalSpline.KnotVector

variable {α : Type} [Scalar α]

/-- Halve the index interval from `low` to `high` until its midpoint is a span of
`u`, or until the midpoint stands still.  It ends on any list of knots, sorted or
not: a step that moves the midpoint brings the bounds closer. -/
def bisect (U : KnotVector α) (u : α) (low high : Nat) : Nat :=
  let middle := (low + high) / 2
  -- a midpoint that would come again ends the search
  if u < U.knot middle then
    if (low + middle) / 2 = middle then middle else bisect U u low middle
  else if U.knot (middle + 1) ≤ u then
    if (middle + high) / 2 = middle then middle else bisect U u middle high
  else middle
termination_by (high - low) + (low - high)
decreasing_by all_goals omega

/-- The search never leaves the indices it starts from. -/
theorem bisect_bounds (U : KnotVector α) (u : α) {low high : Nat} (h : low ≤ high) :
    low ≤ U.bisect u low high ∧ U.bisect u low high ≤ high := by
  fun_induction U.bisect u low high with
  | case1 | case3 | case5 => omega
  | case2 low high middle _ _ ih =>
      have inside := ih (by omega)
      omega
  | case4 low high middle _ _ _ ih =>
      have inside := ih (by omega)
      omega

variable [Precision α]

/-- The span of `u` for control points `0 … n` of degree `p`. -/
def span (U : KnotVector α) (n p : Nat) (u : α) : Nat :=
  -- the end of the domain belongs to the last span
  if U.knot (n + 1) - Precision.epsilon < u then n
  else if u < U.knot p + Precision.epsilon then p
  else U.bisect u p (n + 1)

theorem span_bounds (U : KnotVector α) {n p : Nat} (u : α) (h : p ≤ n) :
    p ≤ U.span n p u ∧ U.span n p u ≤ n + 1 := by
  have inside := U.bisect_bounds u (show p ≤ n + 1 by omega)
  unfold span
  split
  · omega
  · split <;> omega

/-- The bisection, if it meets only knots that are there. -/
def bisect? (U : KnotVector α) (u : α) (low high : Nat) : Option Nat :=
  let middle := (low + high) / 2
  match U.values[middle]? with
  | none => none
  | some k =>
      if u < k then
        if (low + middle) / 2 = middle then some middle else bisect? U u low middle
      else
        match U.values[middle + 1]? with
        | none => none
        | some k' =>
            if k' ≤ u then
              if (middle + high) / 2 = middle then some middle else bisect? U u middle high
            else some middle
termination_by (high - low) + (low - high)
decreasing_by all_goals omega

/-- The span of `u`, if the search meets only knots that are there. -/
def span? (U : KnotVector α) (n p : Nat) (u : α) : Option Nat := do
  let last ← U.values[← Word.unsigned? (n + 1)]?
  if last - Precision.epsilon < u then return n
  let first ← U.values[p]?
  if u < first + Precision.epsilon then return p
  U.bisect? u p (n + 1)

end RationalSpline.KnotVector
