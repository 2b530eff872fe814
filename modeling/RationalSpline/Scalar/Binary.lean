/-
  RationalSpline.Scalar.Binary
  ────────────────────────────
  BINARY NUMBERS AND THEIR EXACT VALUES.

  A finite binary number is `± m·2^e` with a natural `m`.  Numbers are printed and
  read through this exact value, never through rounded arithmetic.
-/
import RationalSpline.Decimal.Basic
import RationalSpline.Scalar.Floating

namespace RationalSpline

/-- What a binary number stands for. -/
inductive BinaryValue where
  /-- No number. -/
  | undefined
  /-- An infinity. -/
  | infinite (negative : Bool)
  /-- The number `± mantissa·2^exponent`. -/
  | finite (negative : Bool) (mantissa : Nat) (exponent : Int)
  deriving Repr, DecidableEq

/-- Numbers of a binary floating point format. -/
class Binary (α : Type) where
  /-- The value of a number. -/
  value : α → BinaryValue
  /-- The number of binary digits of a mantissa. -/
  mantissaBits : Nat
  /-- The least exponent. -/
  minExponent : Int
  /-- The number nearest to a decimal, infinite beyond the largest. -/
  nearest : Decimal → α
  /-- The number nearest to what a decimal is in double precision. -/
  nearestTwice : Decimal → α

namespace Binary

/-- The value of a pattern of bits: sign, biased exponent, fraction. -/
def valueOfBits (bits fractionBits exponentBits : Nat) : BinaryValue :=
  let fraction := bits % Nat.pow 2 fractionBits
  let biased := bits / Nat.pow 2 fractionBits % Nat.pow 2 exponentBits
  let negative := bits / Nat.pow 2 (fractionBits + exponentBits) % 2 == 1
  let least : Int := 2 - (Nat.pow 2 (exponentBits - 1) : Nat) - fractionBits
  -- the largest exponent is kept for what is no finite number
  if biased = Nat.pow 2 exponentBits - 1 then
    if fraction = 0 then .infinite negative else .undefined
  -- the least one has no leading digit that goes without saying
  else if biased = 0 then .finite negative fraction least
  else .finite negative (Nat.pow 2 fractionBits + fraction) (least + (biased - 1 : Nat))

/-- Powers of ten beyond this decide the value of a decimal alone. -/
def exponentBound : Int := 400

/-- A decimal by its sign, its digits and its exponent, for a format that reads
digits with an unsigned exponent.  Decimals beyond every number of the format are
shortened to one that reads the same. -/
def readDecimal {α : Type} [Neg α] (read : Nat → Bool → Nat → α) (d : Decimal) : α :=
  let size : Int := d.exponent + (Decimal.digitCount d.digits : Nat)
  let magnitude :=
    if d.digits = 0 ∨ size < -exponentBound then read 0 false 0
    else if exponentBound < size then read 1 false exponentBound.toNat
    else read d.digits (decide (d.exponent < 0)) d.exponent.natAbs
  if d.negative then -magnitude else magnitude

instance : Binary Float where
  value x := valueOfBits x.toBits.toNat 52 11
  mantissaBits := 53
  minExponent := -1074
  nearest := readDecimal Float.ofScientific
  nearestTwice := readDecimal Float.ofScientific

instance : Binary Float32 where
  value x := valueOfBits x.toBits.toNat 23 8
  mantissaBits := 24
  minExponent := -149
  nearest := readDecimal Float32.ofScientific
  nearestTwice d := (readDecimal Float.ofScientific d : Float).toFloat32

end Binary

end RationalSpline
