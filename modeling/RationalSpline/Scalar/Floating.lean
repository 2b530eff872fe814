/-
  RationalSpline.Scalar.Floating
  ──────────────────────────────
  BINARY FLOATING POINT AS SCALARS.

  Double precision (`Float`) and single precision (`Float32`).  The constants of
  single precision are those of double precision, rounded once more.
-/
import RationalSpline.Scalar

namespace RationalSpline

/-! ## §1. Double precision. -/

instance : Scalar Float where
  zero := 0.0
  one := 1.0
  natCast := Float.ofNat
  decLt := inferInstance
  decLe := inferInstance

instance : Precision Float where
  epsilon := 1.0 / 4503599627370496.0
  isFinite := Float.isFinite

/-- The count given by a number that is already whole; there is none for an
undefined number or for one that no 64-bit count holds. -/
def wholeCount? (x : Float) : Option Nat :=
  if x > -1.0 && x < 18446744073709551616.0 then some x.toUInt64.toNat else none

instance : Analytic Float where
  sqrt := Float.sqrt
  pow := Float.pow
  sin := Float.sin
  cos := Float.cos
  acos := Float.acos
  atan2 := Float.atan2
  invSqrtTwo := 0.707106781186547524400844362104849039
  halfPi := 1.57079632679489661923132169163975144
  tau := 6.28318530717958647692528676655900577
  ceil? x := wholeCount? x.ceil

/-! ## §2. Single precision. -/

instance : Scalar Float32 where
  zero := 0.0
  one := 1.0
  natCast n := (Float.ofNat n).toFloat32
  decLt := inferInstance
  decLe := inferInstance

instance : Precision Float32 where
  epsilon := 1.0 / 8388608.0
  isFinite := Float32.isFinite

instance : Analytic Float32 where
  sqrt := Float32.sqrt
  pow := Float32.pow
  sin := Float32.sin
  cos := Float32.cos
  acos := Float32.acos
  atan2 := Float32.atan2
  invSqrtTwo := (Analytic.invSqrtTwo : Float).toFloat32
  halfPi := (Analytic.halfPi : Float).toFloat32
  tau := (Analytic.tau : Float).toFloat32
  ceil? x := wholeCount? x.ceil.toFloat

end RationalSpline
