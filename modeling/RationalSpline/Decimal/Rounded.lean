/-
  RationalSpline.Decimal.Rounded
  ──────────────────────────────
  DECIMALS OF A GIVEN PRECISION.

  A number below 1 keeps so many digits behind the point, any other so many
  digits in all.  The exact value is rounded, a half to the even digit.
-/
import RationalSpline.Scalar.Binary

namespace RationalSpline.Decimal

/-- The quotient of naturals equal to `mantissa·2^binary·10^decimal`. -/
def fraction (mantissa : Nat) (binary decimal : Int) : Nat × Nat :=
  (mantissa * Nat.pow 2 binary.toNat * Nat.pow 10 decimal.toNat,
    Nat.pow 2 (-binary).toNat * Nat.pow 10 (-decimal).toNat)

/-- The exponent of the last digit kept of `mantissa·2^exponent`. -/
def lastPlace (precision mantissa : Nat) (exponent : Int) : Int :=
  let (n, d) := fraction mantissa exponent 0
  if n < d then -(precision : Int) else (digitCount (n / d) : Int) - precision

/-- A binary value rounded to a precision; none for an infinity or no number. -/
def rounded? (precision : Nat) : BinaryValue → Option Decimal
  | .undefined => none
  | .infinite _ => none
  | .finite negative mantissa exponent =>
      let place := lastPlace precision mantissa exponent
      let (n, d) := fraction mantissa exponent (-place)
      let digits := roundQuotient n d
      some ⟨negative && digits != 0, digits, place⟩

end RationalSpline.Decimal
