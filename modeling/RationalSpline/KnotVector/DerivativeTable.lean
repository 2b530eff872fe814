/-
  RationalSpline.KnotVector.DerivativeTable
  ─────────────────────────────────────────
  ALL DERIVATIVES OF THE BASIS FUNCTIONS IN ONE TABLE.

  The basis functions of every degree up to `p` and the lengths of their supports
  share one square table, the triangle:

      cell (r, j)   for r ≤ j   the basis function at place r of degree j
      cell (j, r)   for r < j   the length of the support it divides by

  The coefficients of a derivative and of the one before take two rows in turns; a
  row starts at the first place that has a coefficient, so place `q` of the order `k`
  is entry `q + k - r`.  The factorial factors come last, in one number that is
  multiplied once for every order; `word` says what it can hold.

  All of this happens in place, at computed indices.  An index outside a table and a
  number outside its word give `none`.
-/
import RationalSpline.Checked
import RationalSpline.KnotVector.Basis

namespace RationalSpline.KnotVector

variable {α : Type} [Scalar α]

/-! ## §1. The triangle. -/

/-- The distances from the knots around a span, and the triangle they build. -/
structure Triangle (α : Type) where
  /-- The distances from the knots below, from index 1 on. -/
  below : List α
  /-- The distances from the knots above, from index 1 on. -/
  above : List α
  /-- The basis functions of every degree and their supports. -/
  cells : Grid α

namespace Triangle

/-- The triangle of degree 0. -/
def start (p : Nat) : Option (Triangle α) := do
  let cells ← (Grid.zeros (p + 1) (p + 1)).put? 0 0 1
  return ⟨List.replicate (p + 1) 0, List.replicate (p + 1) 0, cells⟩

/-- Cell `r` of column `j` and the support it needs; `saved` is the share that the cell
before passes on. -/
def addCell? (j : Nat) (state : Triangle α × α) (r : Nat) : Option (Triangle α × α) := do
  let (T, saved) := state
  let above ← Sequence.item? T.above (r + 1)
  let below ← Sequence.item? T.below (j - r)
  let cells ← T.cells.put? j r (above + below)
  let share := (← cells.at? r (j - 1)) / (← cells.at? j r)
  let cells ← cells.put? r j (saved + above * share)
  return ({ T with cells }, below * share)

/-- Column `j`: the basis functions of degree `j` on the span `i`. -/
def addColumn? (U : KnotVector α) (i : Nat) (u : α) (T : Triangle α) (j : Nat) :
    Option (Triangle α) := do
  let next ← Word.unsigned? (i + 1)
  let low ← U.values[← Word.unsigned? (next - j)]?
  let below ← Sequence.replace? T.below j (u - low)
  let high ← U.values[← Word.unsigned? (i + j)]?
  let above ← Sequence.replace? T.above j (high - u)
  let (T, saved) ← (List.range' 0 j).foldlM (addCell? j) ({ T with below, above }, 0)
  let cells ← T.cells.put? j j saved
  return { T with cells }

end Triangle

/-- The triangle of degree `p` on the span `i`. -/
def triangle? (U : KnotVector α) (i p : Nat) (u : α) : Option (Triangle α) := do
  (List.range' 1 p).foldlM (Triangle.addColumn? U i u) (← Triangle.start p)

/-! ## §2. Coefficients. -/

/-- Two rows of coefficients that take turns. -/
structure Turns (α : Type) where
  /-- The two rows. -/
  rows : Grid α
  /-- The index of the row that holds the order before. -/
  read : Nat
  /-- The index of the row for the next order. -/
  write : Nat

namespace Turns

/-- Store the coefficient of place `q` at entry `j`, and give its share of the
derivative, whose basis functions are in column `pk`. -/
def store? (cells : Grid α) (pk : Int) (a : Turns α) (j q : Int) (c : α) :
    Option (Turns α × α) := do
  let rows ← a.rows.put? a.write j c
  return ({ a with rows }, c * (← cells.at? q pk))

/-- The first place, if the order `k` has a coefficient there: it has a neighbour behind
it only.  It begins the sum. -/
def first? (cells : Grid α) (k r : Nat) (rk pk : Int) (a : Turns α) :
    Option (Turns α × α) :=
  if k ≤ r then do
    let c := (← a.rows.at? a.read 0) / (← cells.at? (← Word.signed? (pk + 1)) rk)
    a.store? cells pk 0 rk c
  else some (a, 0)

/-- The entry of the first place between, where the first place of all is `rk`. -/
def lowest? (rk : Int) : Option Int :=
  if -1 ≤ rk then some 1 else Word.signed? (-rk)

/-- The entry of the last place between, where the last place of all is `pk`. -/
def highest? (p r k : Nat) (pk : Int) : Option Int := do
  if (← Word.signed? (r - 1)) ≤ pk then Word.signed? (k - 1) else Word.signed? (p - r)

/-- The coefficient at entry `j₁ + m`, from both neighbours. -/
def between? (cells : Grid α) (rk pk j₁ : Int) (state : Turns α × α) (m : Nat) :
    Option (Turns α × α) := do
  let (a, d) := state
  let j := j₁ + m
  let q ← Word.signed? (rk + j)
  let difference := (← a.rows.at? a.read j) - (← a.rows.at? a.read (j - 1))
  let c := difference / (← cells.at? (← Word.signed? (pk + 1)) q)
  let (a, share) ← a.store? cells pk j q c
  return (a, d + share)

/-- The last place, if the order `k` has a coefficient there: it has a neighbour before
it only. -/
def last? (cells : Grid α) (k r : Nat) (pk : Int) (state : Turns α × α) :
    Option (Turns α × α) :=
  if (r : Int) ≤ pk then do
    let (a, d) := state
    let c := -(← a.rows.at? a.read (k - 1)) / (← cells.at? (← Word.signed? (pk + 1)) r)
    let (a, share) ← a.store? cells pk k r c
    return (a, d + share)
  else some state

/-- The coefficients of the order `k` for the basis function at place `r`, and the
derivative of that order before its factor.  Then the rows change turns. -/
def order? (cells : Grid α) (p r : Nat) (a : Turns α) (k : Nat) :
    Option (Turns α × α) := do
  let rk ← Word.signed? (r - k)
  let pk ← Word.signed? (p - k)
  let state ← a.first? cells k r rk pk
  let j₁ ← lowest? rk
  let j₂ ← highest? p r k pk
  let state ← (List.range' 0 (j₂ + 1 - j₁).toNat).foldlM (between? cells rk pk j₁) state
  let (a, d) ← last? cells k r pk state
  return ({ a with read := a.write, write := a.read }, d)

end Turns

/-! ## §3. Rows of derivatives. -/

/-- The derivative of order `k` of the basis function at place `r`. -/
def addOrder? (cells : Grid α) (p r : Nat) (state : Turns α × Grid α) (k : Nat) :
    Option (Turns α × Grid α) := do
  let (a, ders) := state
  let (a, d) ← a.order? cells p r k
  return (a, ← ders.put? k r d)

/-- The derivatives of orders `1, …, count` of the basis function at place `r`.  The rows
of coefficients are used again for every place. -/
def addPlace? (cells : Grid α) (p count : Nat) (state : Grid α × Grid α) (r : Nat) :
    Option (Grid α × Grid α) := do
  let (rows, ders) := state
  let rows ← rows.put? 0 0 1
  let (a, ders) ← (List.range' 1 count).foldlM (addOrder? cells p r) (⟨rows, 0, 1⟩, ders)
  return (a.rows, ders)

/-- The basis function at place `r` is the derivative of order 0. -/
def addValue? (cells : Grid α) (p : Nat) (ders : Grid α) (r : Nat) : Option (Grid α) := do
  ders.put? 0 r (← cells.at? r p)

/-- Multiply an entry of the order `k` by its factor. -/
def scaleCell? (k : Nat) (factor : Int) (ders : Grid α) (r : Nat) : Option (Grid α) := do
  ders.put? k r ((← ders.at? k r) * (factor.toNat : α))

/-- Multiply the order `k` by its factor, and then the factor by one more number. -/
def applyFactor? (word : Int → Option Int) (p : Nat) (state : Grid α × Int) (k : Nat) :
    Option (Grid α × Int) := do
  let (ders, factor) := state
  let ders ← (List.range' 0 (p + 1)).foldlM (scaleCell? k factor) ders
  return (ders, ← word (factor * (← Word.signed? (p - k))))

/-- The derivatives of orders `0, …, count` of the basis functions of degree `p` on the
span `i`, a row for each order. -/
def derivativeRowsIn? (word : Int → Option Int) (U : KnotVector α) (i p : Nat) (u : α)
    (count : Nat) : Option (List (List α)) :=
  if p < storageLimit ∧ count < storageLimit then do
    let T ← U.triangle? i p u
    let places := List.range' 0 (p + 1)
    let ders ← places.foldlM (addValue? T.cells p) (Grid.zeros (count + 1) (p + 1))
    let (_, ders) ← places.foldlM (addPlace? T.cells p count) (Grid.zeros 2 (p + 1), ders)
    let (ders, _) ← (List.range' 1 count).foldlM (applyFactor? word p) (ders, (p : Int))
    return ders
  else none

/-- The table with factors in signed words. -/
def derivativeRows? (U : KnotVector α) (i p : Nat) (u : α) (count : Nat) :
    Option (List (List α)) :=
  U.derivativeRowsIn? Word.signed? i p u count

end RationalSpline.KnotVector
