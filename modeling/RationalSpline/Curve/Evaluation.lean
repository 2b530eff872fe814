/-
  RationalSpline.Curve.Evaluation
  ───────────────────────────────
  POINTS AND DERIVATIVES.

  A rational curve is a quotient: its stored vectors are a spline whose last
  coordinate is the weight.  Its derivatives follow from those of numerator and
  weight by the product rule, solved for the quotient.
-/
import RationalSpline.Curve.Basic
import RationalSpline.Binomial
import RationalSpline.KnotVector.DerivativeTable
import RationalSpline.Spline.Derivatives

namespace RationalSpline.Curve

variable {α : Type} [Scalar α] [Precision α]

/-! ## §1. Points. -/

/-- The value of the stored vectors at `t`. -/
def vectorAt (c : Curve α) (t : α) : Point α := c.spline.value c.vectorSize t

/-- The location at `t`. -/
def pointAt (c : Curve α) (t : α) : Point α :=
  if c.isRational then Point.dehomogenize (c.vectorAt t) else c.vectorAt t

/-- The location at `t`, if there is a span. -/
def pointAt? (c : Curve α) (t : α) : Option (Point α) :=
  if c.hasSpan then some (c.pointAt t) else none

/-! ## §2. Derivatives. -/

/-- The derivatives of orders `0, …, count` of the stored vectors. -/
def vectorDerivatives (c : Curve α) (t : α) (count : Nat) : List (Point α) :=
  c.spline.derivatives c.vectorSize t count

/-- The derivatives of the quotient of `numerator` by `weight`, given theirs. -/
def quotientDerivatives (numerator : List (Point α)) (weight : List α) :
    Nat → List (Point α)
  | 0 => [Point.divide (numerator.getD 0 []) (weight.getD 0 0)]
  | k + 1 =>
      let lower := quotientDerivatives numerator weight k
      let row : List α := binomialRow (k + 1)
      -- what the product rule leaves of the numerator for the highest derivative
      let rest := (List.range (k + 1)).foldl
        (fun rest i =>
          Point.sub rest
            (Point.scale (lower.getD (k - i) [])
              (row.getD (i + 1) 0 * weight.getD (i + 1) 0)))
        (numerator.getD (k + 1) [])
      lower ++ [Point.divide rest (weight.getD 0 0)]

/-- The location and the derivatives of orders `1, …, count` at `t`. -/
def derivatives (c : Curve α) (t : α) (count : Nat) : List (Point α) :=
  let ders := c.vectorDerivatives t count
  if c.isRational then
    quotientDerivatives (ders.map (·.take c.dimension))
      (ders.map (·.getD c.dimension 0)) count
  else ders

/-! ## §3. Checked derivatives. -/

/-- Add the control point `start + j`, times the `j`-th number of a row. -/
def addTerm? (c : Curve α) (start : Nat) (row : List α) (sum : Point α) (j : Nat) :
    Option (Point α) := do
  let p ← Sequence.item? c.points.vectors (← Word.unsigned? (start + j))
  Point.add? sum (Point.scale p (← Sequence.item? row j))

/-- A row of coefficients, applied to the control points from `start` on. -/
def combine? (c : Curve α) (start : Nat) (row : List α) : Option (Point α) :=
  (List.range' 0 (c.degree + 1)).foldlM (c.addTerm? start row) (Point.zero c.vectorSize)

/-- The derivatives of the stored vectors, zero above the degree.  The factors of the basis
functions are held in `word`. -/
def vectorDerivativesIn? (word : Int → Option Int) (c : Curve α) (t : α) (count : Nat) :
    Option (List (Point α)) :=
  if c.knotCount + 2 < storageLimit ∧ count < storageLimit then do
    let U ← c.knots.padded? c.order
    let last ← Word.unsigned? (c.pointCount - 1)
    let nonzero := min count c.degree
    let i ← U.span? last c.degree t
    let rows ← U.derivativeRowsIn? word i c.degree t nonzero
    let start ← Word.unsigned? (i - c.degree)
    let ders ← rows.mapM (c.combine? start)
    return ders ++ List.replicate (count - nonzero) (Point.zero c.vectorSize)
  else none

/-- What the product rule leaves of the numerator after the `i`-th summand. -/
def subtractSummand? (weight : List α) (lower : List (Point α)) (k : Nat) (row : List α)
    (rest : Point α) (i : Nat) : Option (Point α) := do
  let w ← Sequence.item? weight i
  let p ← Sequence.item? lower (← Word.unsigned? (k - i))
  Point.sub? rest (Point.scale p (row.getD i 0 * w))

/-- The `k`-th derivative of the quotient after all lower ones. -/
def addQuotient? (numerator : List (Point α)) (weight : List α) (lower : List (Point α))
    (k : Nat) : Option (List (Point α)) := do
  let whole ← Sequence.item? numerator k
  let rest ← (List.range' 1 k).foldlM
    (subtractSummand? weight lower k (binomialRow k)) whole
  return lower ++ [Point.divide rest (← Sequence.item? weight 0)]

/-- The location and the derivatives of orders `1, …, count`, computed in place.  An index
outside a list, vectors of two sizes and a number outside its word give none. -/
def derivativesIn? (word : Int → Option Int) (c : Curve α) (t : α) (count : Nat) :
    Option (List (Point α)) := do
  let ders ← c.vectorDerivativesIn? word t count
  if c.isRational then
    let numerator ← ders.mapM fun v => Point.leading? v c.dimension
    let weight ← ders.mapM fun v => Sequence.item? v c.dimension
    (List.range' 0 (count + 1)).foldlM (addQuotient? numerator weight) []
  else return ders

/-- The derivatives with factors in signed words. -/
def derivatives? (c : Curve α) (t : α) (count : Nat) : Option (List (Point α)) :=
  c.derivativesIn? Word.signed? t count

/-! ## §4. The tangent. -/

/-- The first derivative at `t`. -/
def tangentAt (c : Curve α) (t : α) : Point α := (c.derivatives t 1).getD 1 []

/-- The first derivative at `t`, if there is a span. -/
def tangentAt? (c : Curve α) (t : α) : Option (Point α) :=
  if c.hasSpan then some (c.tangentAt t) else none

end RationalSpline.Curve
