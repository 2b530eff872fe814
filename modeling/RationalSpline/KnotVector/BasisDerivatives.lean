/-
  RationalSpline.KnotVector.BasisDerivatives
  ──────────────────────────────────────────
  DERIVATIVES OF THE BASIS FUNCTIONS.

  The `k`-th derivative of a basis function of degree `p` is a combination of the
  basis functions of degree `p - k`, times `p·(p-1)⋯(p-k+1)`.  The coefficients
  come from those of the derivative before by differences over the lengths of
  supports (`differences`).  Derivatives above the degree vanish.

  Here every derivative is written down by itself; `KnotVector.DerivativeTable`
  computes all of them in one table.
-/
import RationalSpline.KnotVector.Basis

namespace RationalSpline.KnotVector

/-- The product `p·(p-1)⋯(p-k+1)` of `k` factors. -/
def fallingFactorial (p : Nat) : Nat → Nat
  | 0 => 1
  | k + 1 => fallingFactorial p k * (p - k)

variable {α : Type} [Scalar α]

/-- The coefficient at place `q` of the derivative of order `k + 1`, from the
coefficients `c` of the order `k`.  Outside the places `r - k, …, r` there is none,
so the outermost two have one neighbour only. -/
def nextDifference (U : KnotVector α) (i : Nat) (u : α) (p r k : Nat) (c : List α)
    (q : Nat) : α :=
  if q + (k + 1) = r then c.getD (q + 1) 0 / U.support i u (p - k) q
  else if q = r then -c.getD q 0 / U.support i u (p - k) q
  else if r < q + (k + 1) ∧ q < r then
    (c.getD (q + 1) 0 - c.getD q 0) / U.support i u (p - k) q
  else 0

/-- The coefficients of the `k`-th derivative of the basis function at place `r`,
before the factorial factor: entry `q` belongs to place `q` of degree `p - k`.
Only the places `r - k, …, r` carry one. -/
def differences (U : KnotVector α) (i : Nat) (u : α) (p r : Nat) : Nat → List α
  | 0 => (List.range (p + 1)).map fun q => if q = r then 1 else 0
  | k + 1 => (List.range (p - k)).map (U.nextDifference i u p r k (differences U i u p r k))

/-- The sum over the first `n` places of coefficients `c` times basis functions `row`.
Its first summand, at the place `r - k`, begins the sum. -/
def shares (c row : List α) (r k n : Nat) : α :=
  (List.range n).foldl
    (fun sum q => if r < q + k ∧ q ≤ r then sum + c.getD q 0 * row.getD q 0 else sum)
    (if k ≤ r then c.getD (r - k) 0 * row.getD (r - k) 0 else 0)

/-- The `k`-th derivative of the basis function at place `r`, before the factorial
factor. -/
def reducedDerivative (U : KnotVector α) (i : Nat) (u : α) (p k r : Nat) : α :=
  if k ≤ p then
    shares (U.differences i u p r k) (U.basisRow i u (p - k)) r k (p - k + 1)
  else 0

/-- The `k`-th derivatives of the basis functions of degree `p` on the span `i`. -/
def derivativeRow (U : KnotVector α) (i : Nat) (u : α) (p k : Nat) : List α :=
  if k = 0 then U.basisRow i u p
  else
    (List.range (p + 1)).map fun r =>
      U.reducedDerivative i u p k r * (fallingFactorial p k : α)

/-- The derivatives of orders `0, …, count`, a row for each. -/
def derivativeRows (U : KnotVector α) (i : Nat) (u : α) (p count : Nat) : List (List α) :=
  (List.range (count + 1)).map (U.derivativeRow i u p)

@[simp] theorem length_differences (U : KnotVector α) (i : Nat) (u : α) (p r k : Nat) :
    (U.differences i u p r k).length = p + 1 - k := by
  cases k <;> simp [differences]

@[simp] theorem length_derivativeRow (U : KnotVector α) (i : Nat) (u : α) (p k : Nat) :
    (U.derivativeRow i u p k).length = p + 1 := by
  unfold derivativeRow
  split <;> simp

@[simp] theorem length_derivativeRows (U : KnotVector α) (i : Nat) (u : α) (p count : Nat) :
    (U.derivativeRows i u p count).length = count + 1 := by
  simp [derivativeRows]

end RationalSpline.KnotVector
