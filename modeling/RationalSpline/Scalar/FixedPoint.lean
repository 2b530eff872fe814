/-
  RationalSpline.Scalar.FixedPoint
  ────────────────────────────────
  FIXED POINT NUMBERS.

  A number in units of `2⁻¹²⁸`, for constants that double precision has to hold to
  the last digit: they are computed here and rounded once.
-/
import RationalSpline.Scalar.Binary

namespace RationalSpline

/-- A number in units of `2⁻¹²⁸`. -/
structure FixedPoint where
  /-- The number of units. -/
  units : Int
  deriving Repr, DecidableEq

namespace FixedPoint

/-- The number of binary digits behind the point. -/
def places : Nat := 128

/-- A whole number. -/
def ofInt (n : Int) : FixedPoint := ⟨n * Nat.pow 2 places⟩

/-! ## §1. Arithmetic. -/

/-- Sum. -/
def add (a b : FixedPoint) : FixedPoint := ⟨a.units + b.units⟩

/-- Difference. -/
def sub (a b : FixedPoint) : FixedPoint := ⟨a.units - b.units⟩

/-- Product, cut off after the last place. -/
def mul (a b : FixedPoint) : FixedPoint := ⟨a.units * b.units / Nat.pow 2 places⟩

/-- Quotient, cut off after the last place. -/
def div (a b : FixedPoint) : FixedPoint := ⟨a.units * Nat.pow 2 places / b.units⟩

/-- Product with a whole number. -/
def times (n : Nat) (a : FixedPoint) : FixedPoint := ⟨n * a.units⟩

/-- Quotient by a whole number, cut off after the last place. -/
def divideBy (a : FixedPoint) (n : Nat) : FixedPoint := ⟨a.units / n⟩

/-- Whole numbers are added without loss. -/
theorem add_ofInt (m n : Int) : (ofInt m).add (ofInt n) = ofInt (m + n) := by
  simp [add, ofInt, Int.add_mul]

/-- Whole numbers are subtracted without loss. -/
theorem sub_ofInt (m n : Int) : (ofInt m).sub (ofInt n) = ofInt (m - n) := by
  simp [sub, ofInt, Int.sub_mul]

/-- Whole numbers are multiplied without loss. -/
theorem mul_ofInt (m n : Int) : (ofInt m).mul (ofInt n) = ofInt (m * n) := by
  have nonzero : ((Nat.pow 2 places : Nat) : Int) ≠ 0 :=
    Int.ofNat_ne_zero.2 (Nat.pos_iff_ne_zero.1 (Nat.pow_pos (by decide)))
  have regrouped : m * (Nat.pow 2 places : Nat) * (n * (Nat.pow 2 places : Nat))
      = m * n * (Nat.pow 2 places : Nat) * (Nat.pow 2 places : Nat) := by
    simp only [Int.mul_assoc, Int.mul_left_comm, Int.mul_comm]
  simp only [mul, ofInt, regrouped]
  rw [Int.mul_ediv_cancel _ nonzero]

/-- A product loses less than one unit. -/
theorem mul_bounds (a b : FixedPoint) :
    (a.mul b).units * (Nat.pow 2 places : Nat) ≤ a.units * b.units
      ∧ a.units * b.units < ((a.mul b).units + 1) * (Nat.pow 2 places : Nat) := by
  have positive : (0 : Int) < (Nat.pow 2 places : Nat) :=
    Int.natCast_pos.2 (Nat.pow_pos (by decide))
  exact ⟨Int.ediv_mul_le _ (Int.ne_of_gt positive), Int.lt_ediv_add_one_mul_self _ positive⟩

/-- The terms from one on of the cosine of an angle, alternating in sign; `k` of them
have come before. -/
def cosineTerms (square term : FixedPoint) : Nat → Nat → FixedPoint
  | _, 0 => ofInt 0
  | k, count + 1 =>
      let next := ((term.mul square).divideBy ((2 * k + 1) * (2 * k + 2)))
      term.sub (cosineTerms square next (k + 1) count)

/-- The cosine of an angle up to a quarter turn. -/
def cos (angle : FixedPoint) : FixedPoint := cosineTerms (angle.mul angle) (ofInt 1) 0 32

/-! ## §2. Double precision. -/

/-- The number of units in a finite double, cut off after the last place. -/
def ofFloat (x : Float) : FixedPoint :=
  match Binary.value x with
  | .finite negative mantissa exponent =>
      let shift := exponent + places
      let magnitude : Nat :=
        if 0 ≤ shift then mantissa * Nat.pow 2 shift.toNat
        else mantissa / Nat.pow 2 (-shift).toNat
      ⟨if negative then -(magnitude : Int) else magnitude⟩
  | _ => ofInt 0

/-- The nearest double. -/
def toFloat (a : FixedPoint) : Float :=
  let magnitude := a.units.natAbs
  let shift := Nat.log2 magnitude - 52
  let mantissa := Decimal.roundQuotient magnitude (Nat.pow 2 shift)
  let x := mantissa.toUInt64.toFloat.scaleB ((shift : Int) - places)
  if a.units < 0 then -x else x

end FixedPoint

end RationalSpline
