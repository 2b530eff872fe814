/-
  RationalSpline.Proofs.Exact
  ───────────────────────────
  EXACT NUMBERS.

  Every ordered field is a carrier of the library: the algorithms that run on
  floating point run on it without rounding, and the laws of the field apply to
  them.  `Precision.Exact` says what a test against rounding may assume there:
  every number is finite, and the spacing `epsilon` is not negative.
-/
import Mathlib
import RationalSpline.Curve.Edit

namespace RationalSpline

/-! ## §1. Ordered fields as scalars. -/

section Field

variable {K : Type} [Field K] [LinearOrder K]

/-- The operations of an ordered field. -/
@[reducible] instance (priority := low) Scalar.exact : Scalar K where
  beq a b := decide (a = b)
  decLt := inferInstance
  decLe := inferInstance

instance Scalar.exact_lawfulBEq : @LawfulBEq K Scalar.toBEq where
  eq_of_beq h := of_decide_eq_true h
  rfl := decide_eq_true rfl

namespace Scalar

theorem half_eq : (half : K) = 1 / 2 := by
  show (1 : K) / ((2 : Nat) : K) = 1 / 2
  norm_num

theorem abs_eq [IsStrictOrderedRing K] (a : K) : Scalar.abs a = |a| := by
  unfold Scalar.abs
  split
  · next h => exact (abs_of_neg h).symm
  · next h => exact (abs_of_nonneg (not_lt.1 h)).symm

theorem maxNum_eq (a b : K) : maxNum a b = max a b := by
  unfold maxNum
  rcases le_total b a with le | le
  · rw [if_pos le, max_eq_left le]
  · rw [max_eq_right le]
    by_cases le' : b ≤ a
    · rw [if_pos le', le_antisymm le le']
    · rw [if_neg le', if_pos le]

theorem minNum_eq (a b : K) : minNum a b = min a b := by
  unfold minNum
  rcases le_total a b with le | le
  · rw [if_pos le, min_eq_left le]
  · rw [min_eq_right le]
    by_cases le' : a ≤ b
    · rw [if_pos le', le_antisymm le' le]
    · rw [if_neg le', if_pos le]

end Scalar

/-- Rounding is absent: all numbers are finite, and the spacing is not negative. -/
class Precision.Exact (K : Type) [Field K] [LinearOrder K] [Precision K] : Prop where
  /-- No number is infinite or undefined. -/
  isFinite : ∀ a : K, Precision.isFinite a = true
  /-- The spacing is a distance. -/
  epsilon_nonneg : (0 : K) ≤ Precision.epsilon

/-- The spacing of the numbers is a distance, however far the finite numbers reach. -/
class Precision.Spaced (K : Type) [Field K] [LinearOrder K] [Precision K] : Prop where
  /-- The spacing is a distance. -/
  epsilon_nonneg : (0 : K) ≤ Precision.epsilon

instance (priority := low) Precision.Exact.spaced [Precision K] [Precision.Exact K] :
    Precision.Spaced K :=
  ⟨Precision.Exact.epsilon_nonneg⟩

theorem Scalar.pos_of_isWeight [Precision K] {w : K} (h : Scalar.isWeight w = true) : 0 < w :=
  of_decide_eq_true (Bool.and_eq_true_iff.1 h).1

theorem Scalar.isWeight_iff [Precision K] [Precision.Exact K] (w : K) :
    Scalar.isWeight w = true ↔ 0 < w := by
  simp [Scalar.isWeight, Precision.Exact.isFinite]

end Field

/-! ## §2. Rational and real numbers. -/

/-- Rational numbers with the spacing of double precision. -/
instance : Precision ℚ where
  epsilon := 1 / 4503599627370496
  isFinite _ := true

instance : Precision.Exact ℚ where
  isFinite _ := rfl
  epsilon_nonneg := by
    show (0 : ℚ) ≤ 1 / 4503599627370496
    norm_num

/-- Roots and whole powers of rational numbers, exact where the result is rational.  The
circular functions stand at the angle 0; no example needs them elsewhere. -/
instance : Analytic ℚ where
  sqrt x := (x.num.toNat.sqrt : ℚ) / x.den.sqrt
  pow x y := x ^ ⌊y⌋
  sin _ := 0
  cos _ := 1
  acos _ := 0
  atan2 _ _ := 0
  invSqrtTwo := 1
  halfPi := 1
  tau := 4
  ceil? x := if -1 < x ∧ ⌈x⌉₊ < countLimit then some ⌈x⌉₊ else none

theorem Analytic.pow_pos_rat (x y : ℚ) (pos : 0 < x) : 0 < Analytic.pow x y := zpow_pos pos _

/-- The midpoint rule, which integrates the speed of a straight span exactly. -/
instance : Quadrature ℚ ℚ where
  widen := id
  narrow := id
  rule _ := [(0, 2)]

/-- Real numbers with the spacing of double precision. -/
noncomputable instance : Precision ℝ where
  epsilon := 1 / 4503599627370496
  isFinite _ := true

instance : Precision.Exact ℝ where
  isFinite _ := rfl
  epsilon_nonneg := by
    show (0 : ℝ) ≤ 1 / 4503599627370496
    norm_num

/-- Roots, powers and circular functions of real numbers. -/
noncomputable instance : Analytic ℝ where
  sqrt := Real.sqrt
  pow := fun x y => x ^ y
  sin := Real.sin
  cos := Real.cos
  acos := Real.arccos
  atan2 := fun y x => Complex.arg ⟨x, y⟩
  invSqrtTwo := 1 / Real.sqrt 2
  halfPi := Real.pi / 2
  tau := 2 * Real.pi
  ceil? := fun x => if -1 < x ∧ ⌈x⌉₊ < countLimit then some ⌈x⌉₊ else none

/-! ## §3. Results. -/

/-- A result is known once what it holds is known. -/
theorem eq_ok_of_toOption {ε β : Type} {x : Except ε β} {b : β} (h : x.toOption = some b) :
    x = .ok b := by
  cases x with
  | ok a => exact congrArg Except.ok (Option.some.inj h)
  | error e => simp [Except.toOption] at h

/-- A sequence of two steps gives a result when both do. -/
theorem bind_eq_ok {ε β γ : Type} {x : Except ε β} {f : β → Except ε γ} {r : γ}
    (h : (x >>= f) = .ok r) : ∃ a, x = .ok a ∧ f a = .ok r := by
  cases x with
  | error e => cases h
  | ok a => exact ⟨a, rfl, h⟩

end RationalSpline
