/-
  RationalSpline.Failure
  ──────────────────────
  WHY AN OPERATION GIVES NO RESULT.

  A failure is a cause, never a text.  There are four kinds of refusal, each
  with its own causes, and one more constructor, `undefined`, for arguments on
  which an operation has no meaning at all: an entry outside a list, a count
  below zero or beyond 64 bits.  `Failure.message?` holds all wording.
-/

namespace RationalSpline

/-! ## §1. Causes. -/

/-- Counts, sizes and spacings that describe no curve. -/
inductive ShapeCause (α : Type) where
  | dimensionTooSmall
  | orderTooSmall (order : Nat)
  | pointsTooFew (count order : Nat)
  | periodicTooSmall (dimension order : Nat)
  | periodicPointsTooFew (count order : Nat)
  | polylineTooShort
  | pointSizeAt (index size expected : Nat)
  | pointSize (size expected : Nat)
  | knotSpacing (delta : α)
  | noInsertion
  | multiplicityAboveDegree (knot : α) (multiplicity degree : Nat)
  | orderChange (order target : Nat)
  | appendedDimension (appended own : Nat)
  | framesDimension (dimension : Nat)
  | interpolationDegree (degree : Nat)
  | interpolationPointsTooFew (count degree : Nat)
  | coincidentPoints
  | singularSystem
  | ellipseRadii (radiusX radiusY : α)
  | planeXAxis
  | planeYAxis
  deriving Repr

/-- What keeps a curve from being valid. -/
inductive Defect (α : Type) where
  | dimensionTooSmall
  | orderTooSmall (order : Nat)
  | pointsTooFew (count order : Nat)
  | knotCount (knots points order : Nat)
  | pointSize (index size : Nat)
  | pointNotFinite (index : Nat)
  | weightNotPositive (index : Nat)
  | knotsNotFinite
  | knotsDecreasing
  | firstSpanEmpty
  | lastSpanEmpty
  | multiplicityAboveDegree (knot : α) (multiplicity degree : Nat)
  deriving Repr

/-- Parameters and weights outside their permitted range. -/
inductive DomainCause (α : Type) where
  | knotOrder (knot : α) (index : Nat)
  | outsideDomain (knot lower upper : α)
  | unclampedEnd (knot lower upper : α)
  | endKnotRemoval
  | emptyDomain (lower upper : α)
  | weightRange (weight : α)
  | weightsDiffer
  | reparameterization (factor : α)
  | emptySpan (index : Nat) (knot : α)
  | divergentLength
  | vanishingTangent (parameter : α)
  deriving Repr

/-- Why an operation gives no result. -/
inductive Failure (α : Type) where
  /-- An index addresses no knot, control point or span. -/
  | invalidIndex (index length : Nat)
  /-- The counts, sizes or spacings are malformed. -/
  | invalidShape (cause : ShapeCause α)
  /-- A curve does not pass the validity check. -/
  | validationFailed (defect : Defect α)
  /-- A parameter or a weight lies outside its permitted range. -/
  | outOfDomain (cause : DomainCause α)
  /-- The operation has no meaning on these arguments. -/
  | undefined
  deriving Repr

/-! ## §2. Wording. -/

section Wording

variable {α : Type} (text : α → String)

/-- The text of a malformed shape. -/
def ShapeCause.message : ShapeCause α → String
  | .dimensionTooSmall => "dimension must be at least 1"
  | .orderTooSmall order => s!"order {order} is less than 2"
  | .pointsTooFew count order =>
      s!"{count} control points are too few for order {order}"
  | .periodicTooSmall dimension order =>
      s!"dimension {dimension} and order {order} are too small"
  | .periodicPointsTooFew count order =>
      s!"{count} points are too few for a periodic curve of order {order}"
  | .polylineTooShort => "at least 2 points are required"
  | .pointSizeAt index size expected =>
      s!"point {index} has {size} coordinates, expected {expected}"
  | .pointSize size expected => s!"point has {size} coordinates, expected {expected}"
  | .knotSpacing delta => s!"knot spacing {text delta} is not positive"
  | .noInsertion => "knot multiplicity must be positive"
  | .multiplicityAboveDegree knot multiplicity degree =>
      s!"knot {text knot} would have multiplicity {multiplicity} above the degree {degree}"
  | .orderChange order target => s!"cannot change order {order} to {target}"
  | .appendedDimension appended own =>
      s!"cannot append a curve of dimension {appended} to one of dimension {own}"
  | .framesDimension dimension => s!"frames need a 3D curve, got dimension {dimension}"
  | .interpolationDegree degree => s!"cannot interpolate with degree {degree}"
  | .interpolationPointsTooFew count degree =>
      s!"{count} points are too few for degree {degree}"
  | .coincidentPoints => "points are coincident"
  | .singularSystem => "interpolation system is singular"
  | .ellipseRadii radiusX radiusY =>
      s!"ellipse radii {text radiusX} and {text radiusY} must be positive"
  | .planeXAxis => "plane x axis is zero"
  | .planeYAxis => "plane y axis is zero or parallel to x axis"

/-- The text of a defect. -/
def Defect.message : Defect α → String
  | .dimensionTooSmall => "dimension must be at least 1"
  | .orderTooSmall order => s!"order {order} is less than 2"
  | .pointsTooFew count order =>
      s!"{count} control points are too few for order {order}"
  | .knotCount knots points order =>
      s!"knot count {knots} does not match {points} control points of order {order}"
  | .pointSize index size => s!"control point {index} has {size} coordinates"
  | .pointNotFinite index => s!"control point {index} is not finite"
  | .weightNotPositive index => s!"weight {index} is not positive"
  | .knotsNotFinite => "knots are not finite"
  | .knotsDecreasing => "knots are decreasing"
  | .firstSpanEmpty => "the first span is empty"
  | .lastSpanEmpty => "the last span is empty"
  | .multiplicityAboveDegree knot multiplicity degree =>
      s!"knot {text knot} has multiplicity {multiplicity} above the degree {degree}"

/-- The text of a value outside its range. -/
def DomainCause.message : DomainCause α → String
  | .knotOrder knot index => s!"knot {text knot} at index {index} breaks the knot order"
  | .outsideDomain knot lower upper =>
      s!"knot {text knot} is outside the domain [{text lower}, {text upper}]"
  | .unclampedEnd knot lower upper =>
      s!"knot {text knot} lies on an unclamped end of the domain [{text lower}, {text upper}]"
  | .endKnotRemoval => "only knots inside the domain can be removed"
  | .emptyDomain lower upper => s!"domain [{text lower}, {text upper}] is empty"
  | .weightRange weight => s!"weight {text weight} is not positive and finite"
  | .weightsDiffer => "weights differ, the curve cannot be made non-rational"
  | .reparameterization factor =>
      s!"reparameterization factor {text factor} is not positive"
  | .emptySpan index knot => s!"span {index} is empty at {text knot}"
  | .divergentLength => "length integral did not converge"
  | .vanishingTangent parameter => s!"tangent vanishes at {text parameter}"

/-- The text of a refusal; an undefined operation has none. -/
def Failure.message? : Failure α → Option String
  | .invalidIndex index length =>
      some s!"index {index} is out of range (length {length})"
  | .invalidShape cause => some s!"invalid shape: {cause.message text}"
  | .validationFailed defect => some s!"validation failed: {defect.message text}"
  | .outOfDomain cause => some s!"out of domain: {cause.message text}"
  | .undefined => none

end Wording

/-! ## §3. Bounds of machine counts. -/

/-- Counts are 64-bit words. -/
def countLimit : Nat := 18446744073709551616

/-- Lists of this length and above exceed every address space, which has 47 bits. -/
def storageLimit : Nat := 140737488355328

/-- A list of `count` entries can be held. -/
def checkStorage {α : Type} (count : Nat) : Except (Failure α) Unit :=
  if count < storageLimit then .ok () else .error .undefined

end RationalSpline
