/-
  RationalSpline.Decimal.Basic
  ────────────────────────────
  DECIMALS IN PLAIN NOTATION.

  A decimal is `± digits·10^exponent`.  Plain notation writes it without exponent,
  without zeros after the last digit behind the point, and without a point that
  nothing follows.
-/

namespace RationalSpline

/-- The decimal `± digits·10^exponent`. -/
structure Decimal where
  /-- Whether the sign is minus. -/
  negative : Bool
  /-- All digits, as a whole number. -/
  digits : Nat
  /-- The place of the last digit. -/
  exponent : Int
  deriving Repr, DecidableEq

namespace Decimal

/-- A count as a decimal. -/
def ofNat (n : Nat) : Decimal := ⟨false, n, 0⟩

/-- The number of decimal digits, 1 for zero. -/
def digitCount (n : Nat) : Nat := (Nat.toDigits 10 n).length

/-- The nearest whole number to a quotient, the even one of two. -/
def roundQuotient (numerator denominator : Nat) : Nat :=
  let q := numerator / denominator
  let r := numerator % denominator
  if denominator < 2 * r ∨ (2 * r = denominator ∧ q % 2 = 1) then q + 1 else q

/-- The rounded quotient is off by one half at most. -/
theorem roundQuotient_bounds (n : Nat) {d : Nat} (h : 0 < d) :
    2 * (roundQuotient n d * d) ≤ 2 * n + d ∧ 2 * n ≤ 2 * (roundQuotient n d * d) + d := by
  have exact : n / d * d + n % d = n := Nat.div_add_mod' n d
  have next : (n / d + 1) * d = n / d * d + d := Nat.succ_mul _ _
  have small := Nat.mod_lt n h
  simp only [roundQuotient]
  split <;> omega

/-- Of two nearest whole numbers the even one is taken. -/
theorem roundQuotient_of_tie {n d : Nat} (tie : 2 * (n % d) = d) :
    roundQuotient n d % 2 = 0 := by
  simp only [roundQuotient]
  split <;> omega

/-- Characters without the zeros at their end. -/
def trimZeros (cs : List Char) : List Char := (cs.reverse.dropWhile (· == '0')).reverse

/-- The digits of a number with `places` of them behind the point. -/
def withPoint (n places : Nat) : String :=
  let cs := Nat.toDigits 10 n
  -- at least one digit stands before the point
  let cs := List.replicate (places + 1 - cs.length) '0' ++ cs
  let whole := cs.take (cs.length - places)
  match trimZeros (cs.drop (cs.length - places)) with
  | [] => String.ofList whole
  | fraction => String.ofList (whole ++ '.' :: fraction)

/-- Plain notation. -/
def plain (d : Decimal) : String :=
  let magnitude :=
    if 0 ≤ d.exponent then toString (d.digits * Nat.pow 10 d.exponent.toNat)
    else withPoint d.digits (-d.exponent).toNat
  if d.negative then "-" ++ magnitude else magnitude

end Decimal

end RationalSpline
