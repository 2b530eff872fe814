/-
  RationalSpline.Curve.Json
  ─────────────────────────
  THE JSON FORM OF A CURVE.

  A curve is an object with the members `dimension`, `order`, `control_points` and
  `knots`, or an array of the four in this order.  Control points are an object
  with one member, named for their meaning; a vector is an array of its
  coordinates, their number, and `null`.  Members with other names are passed over,
  repeated or missing ones are not allowed.  The curve must be valid.
-/
import RationalSpline.Curve.Validity
import RationalSpline.Json.Decoder
import RationalSpline.Scalar.Binary

namespace RationalSpline

namespace Json

variable {α ρ : Type}

/-! ## §1. Reading parts. -/

section Parts

variable [Binary α] [Precision α]

/-- A whole number whose digits fit a 64-bit word, but not together with its sign. -/
def exceedsSigned (value : Decimal) (whole : Bool) : Bool :=
  whole && value.negative
    && decide (9223372036854775808 < value.digits ∧ value.digits < countLimit)

/-- The finite number nearest to a decimal.  A whole number that only misses the signed
words is read in double precision first. -/
def real? : Json → Option α
  | .number value whole =>
      let x :=
        if exceedsSigned value whole then Binary.nearestTwice value else Binary.nearest value
      if Precision.isFinite x then some x else none
  | _ => none

/-- A finite number. -/
def real : Decoder ρ α := do Decoder.required (← Decoder.number).real?

/-- A vector: its coordinates, their number, and `null`. -/
def vector : Decoder ρ (Point α) := do
  Decoder.symbol '['
  let coordinates ← Decoder.listOf real
  Decoder.symbol ','
  let size ← Decoder.count
  Decoder.symbol ','
  let _ ← Decoder.null
  Decoder.symbol ']'
  if coordinates.length = size then pure coordinates else Decoder.malformed

/-- Vectors of the meaning that a name gives them. -/
def vectorsNamed (name : String) : Decoder ρ (ControlPoints α) :=
  if name = "Cartesian" then .cartesian <$> Decoder.listOf vector
  else if name = "Homogeneous" then .homogeneous <$> Decoder.listOf vector
  else Decoder.malformed

/-- Control points: one member, named for the meaning of the vectors. -/
def controlPoints : Decoder ρ (ControlPoints α) := do
  Decoder.symbol '\x7b'
  let name ← Decoder.text
  Decoder.symbol ':'
  let points ← vectorsNamed name
  Decoder.symbol '\x7d'
  pure points

/-- What has been read of a curve. -/
structure CurveParts (α : Type) where
  /-- The dimension. -/
  dimension : Option Nat := none
  /-- The order. -/
  order : Option Nat := none
  /-- The control points. -/
  points : Option (ControlPoints α) := none
  /-- The knots. -/
  knots : Option (List α) := none

/-- One member of a curve more. -/
def curveMember (name : String) (parts : CurveParts α) : Decoder ρ (CurveParts α) :=
  if name = "dimension" then
    return { parts with dimension := ← Decoder.once parts.dimension Decoder.count }
  else if name = "order" then
    return { parts with order := ← Decoder.once parts.order Decoder.count }
  else if name = "control_points" then
    return { parts with points := ← Decoder.once parts.points controlPoints }
  else if name = "knots" then
    return { parts with knots := ← Decoder.once parts.knots (Decoder.listOf real) }
  else do
    Decoder.skip
    pure parts

/-- A curve that has not been checked. -/
def uncheckedCurve : Decoder ρ (Curve α) := do
  let parts ←
    Decoder.record ["dimension", "order", "control_points", "knots"] curveMember {}
  let dimension ← Decoder.required parts.dimension
  let order ← Decoder.required parts.order
  let points ← Decoder.required parts.points
  let knots ← Decoder.required parts.knots
  pure { dimension, order, points, knots := ⟨knots⟩ }

end Parts

/-! ## §2. Reading and writing curves. -/

/-- What has been read, if it is a valid curve. -/
def accept [Precision α] [Scalar α] (unchecked : Curve α) : Decoder (Failure α) (Curve α) :=
  match unchecked.admitted with
  | .ok curve => pure curve
  | .error e => throw (.refused e)

/-- A valid curve. -/
def curve [Binary α] [Precision α] [Scalar α] : Decoder (Failure α) (Curve α) :=
  uncheckedCurve >>= accept

/-- The valid curve that a text describes. -/
def curveOfText [Binary α] [Precision α] [Scalar α] (text : String) :
    Except (ReadFailure (Failure α)) (Curve α) :=
  curve.run text

/-- The JSON form of a curve, with finite numbers written by `number`.  Other numbers
have no JSON text and are written `null`. -/
def ofCurve [Precision α] (number : α → Json) (c : Curve α) : Json :=
  let real (x : α) : Json := if Precision.isFinite x then number x else .null
  let vector (p : Point α) : Json :=
    .array [.array (p.map real), ofNat p.length, .null]
  let name := if c.isRational then "Homogeneous" else "Cartesian"
  .object
    [("dimension", ofNat c.dimension),
     ("order", ofNat c.order),
     ("control_points", .object [(name, .array (c.points.vectors.map vector))]),
     ("knots", .array (c.knots.values.map real))]

end Json

end RationalSpline
