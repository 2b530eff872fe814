/-
  RationalSpline.Curve.Validity
  ─────────────────────────────
  THE VALIDITY CHECK.

  A curve is valid when its counts fit, its coordinates and knots are finite, its
  weights are positive, its knots do not decrease, its first and last spans are
  not empty, and no knot is repeated more often than the degree.  `defect?` finds
  the first of these rules that fails, in this order.

  Parts that come from outside can have any counts and sizes.  `verdict?` looks for
  the same defect with every index and every word checked; `admitted` decides by it.
-/
import RationalSpline.Curve.Basic
import RationalSpline.Failure

namespace RationalSpline.Curve

variable {α : Type} [Scalar α] [Precision α]

/-! ## §1. The rules. -/

/-- The first control vector of a wrong size or with a coordinate that is not finite. -/
def vectorDefect? (size : Nat) : Nat → List (Point α) → Option (Defect α)
  | _, [] => none
  | i, p :: ps =>
      if p.length ≠ size then some (.pointSize i p.length)
      else if !p.all Precision.isFinite then some (.pointNotFinite i)
      else vectorDefect? size (i + 1) ps

/-- The first rule on knots that fails. -/
def knotDefect? (c : Curve α) : Option (Defect α) :=
  let n := c.pointCount
  if !c.knots.values.all Precision.isFinite then some .knotsNotFinite
  else if !c.knots.isNonDecreasing then some .knotsDecreasing
  else if c.knots.knot (c.order - 1) ≤ c.knots.knot (c.order - 2) then some .firstSpanEmpty
  else if c.knots.knot (n - 1) ≤ c.knots.knot (n - 2) then some .lastSpanEmpty
  else
    (c.knots.multiplicities.find? fun m => decide (c.degree < m.multiplicity)).map fun m =>
      .multiplicityAboveDegree m.knot m.multiplicity c.degree

/-- The first rule on counts that fails. -/
def countDefect? (c : Curve α) : Option (Defect α) :=
  let n := c.pointCount
  if c.dimension < 1 then some .dimensionTooSmall
  else if c.order < 2 then some (.orderTooSmall c.order)
  else if n < c.order then some (.pointsTooFew n c.order)
  else if c.knotCount ≠ n + c.order - 2 then some (.knotCount c.knotCount n c.order)
  else none

/-- The first rule that fails. -/
def defect? (c : Curve α) : Option (Defect α) :=
  c.countDefect?
    <|> vectorDefect? c.vectorSize 0 c.points.vectors
    <|> (c.points.weights.findIdx? fun w => !Scalar.isWeight w).map .weightNotPositive
    <|> c.knotDefect?

/-- The validity check.  It is not defined when the size of a homogeneous control
vector exceeds every count. -/
def validate (c : Curve α) : Except (Failure α) Unit :=
  match c.countDefect? with
  | some d => .error (.validationFailed d)
  | none =>
      if countLimit ≤ c.vectorSize then .error .undefined
      else
        match c.defect? with
        | some d => .error (.validationFailed d)
        | none => .ok ()

/-- Whether the curve passes the validity check. -/
def isValid (c : Curve α) : Bool :=
  match c.validate with
  | .ok _ => true
  | .error _ => false

theorem validate_eq_ok_iff {c : Curve α} : c.validate = .ok () ↔ c.isValid = true := by
  unfold isValid
  cases c.validate <;> simp

/-- The curve, if it passes the validity check. -/
def validated (c : Curve α) : Except (Failure α) (Curve α) := c.validate.map fun _ => c

/-- A curve is valid when no rule fails and its vectors have a size that is a count. -/
theorem isValid_iff {c : Curve α} :
    c.isValid = true ↔ c.vectorSize < countLimit ∧ c.defect? = none := by
  unfold isValid validate
  cases counts : c.countDefect? with
  | some d => simp [defect?, counts]
  | none =>
      by_cases size : countLimit ≤ c.vectorSize
      · simp [size, Nat.not_lt.2 size]
      · cases defect : c.defect? <;> simp [size, Nat.not_le.1 size]

theorem validated_eq_ok_iff {c d : Curve α} :
    c.validated = .ok d ↔ c.isValid = true ∧ c = d := by
  unfold validated isValid
  cases c.validate <;> simp [Except.map]

/-! ## §2. The rules on parts from outside. -/

/-- The first rule on counts that fails, with all counts in words. -/
def countVerdict? (c : Curve α) : Option (Option (Defect α)) :=
  let n := c.pointCount
  if c.dimension < 1 then some (some .dimensionTooSmall)
  else if c.order < 2 then some (some (.orderTooSmall c.order))
  else if n < c.order then some (some (.pointsTooFew n c.order))
  else do
    let sum ← Word.unsigned? ((n : Int) + c.order)
    let fitting ← Word.unsigned? ((sum : Int) - 2)
    if c.knotCount ≠ fitting then return some (.knotCount c.knotCount n c.order)
    return none

/-- The number of coordinates of a stored control vector, if a word holds it. -/
def vectorSize? (c : Curve α) : Option Nat := Word.unsigned? c.vectorSize

/-- The span between two neighbouring knots, the first of them at an index, is empty. -/
def isEmptySpan? (c : Curve α) (i : Int) : Option Bool := do
  let low ← Sequence.item? c.knots.values (← Word.unsigned? i)
  let high ← Sequence.item? c.knots.values (← Word.unsigned? (i + 1))
  return decide (high ≤ low)

/-- The first rule on knots that fails, with all knots read where they are. -/
def knotVerdict? (c : Curve α) : Option (Option (Defect α)) :=
  if !c.knots.values.all Precision.isFinite then some (some .knotsNotFinite)
  else if !c.knots.isNonDecreasing then some (some .knotsDecreasing)
  else do
    if ← c.isEmptySpan? ((c.order : Int) - 2) then return some .firstSpanEmpty
    if ← c.isEmptySpan? ((c.pointCount : Int) - 2) then return some .lastSpanEmpty
    let degree ← Word.unsigned? ((c.order : Int) - 1)
    let groups ← c.knots.multiplicities?
    return (groups.find? fun m => decide (degree < m.multiplicity)).map fun m =>
      .multiplicityAboveDegree m.knot m.multiplicity degree

/-- The first rule that fails, if no index leaves its list and no number its word. -/
def verdict? (c : Curve α) : Option (Option (Defect α)) := do
  if let some d := ← c.countVerdict? then return some d
  let size ← c.vectorSize?
  if let some d := vectorDefect? size 0 c.points.vectors then return some d
  let weights ← c.points.readWeights?
  if let some i := weights.findIdx? fun w => !Scalar.isWeight w then
    return some (.weightNotPositive i)
  c.knotVerdict?

/-- The curve of parts from outside, if it passes the check. -/
def admitted (c : Curve α) : Except (Failure α) (Curve α) :=
  match c.verdict? with
  | none => .error .undefined
  | some (some d) => .error (.validationFailed d)
  | some none => .ok c

end RationalSpline.Curve
