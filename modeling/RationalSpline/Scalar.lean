/-
  RationalSpline.Scalar
  ─────────────────────
  THE NUMBERS A CURVE IS MADE OF.

  Every algorithm of the library is written once, over `Scalar`: the four
  operations, the order and the equality test, in a fixed order of evaluation.
  The same definition therefore has an exact meaning (over an ordered field) and
  a rounded one (over binary floating point).

  What goes beyond field arithmetic is kept in separate classes, so that a
  definition shows in its signature how much of the numbers it uses:

      Precision   — the spacing of the numbers at one, and finiteness
      Analytic    — roots, powers and the circular functions
      Quadrature  — a rule of numerical integration and the sums it runs in
-/

namespace RationalSpline

/-! ## §1. Classes of numbers. -/

/-- Arithmetic with an order and an equality test.  No law is assumed: over
floating point the operations round, and an undefined value differs from itself. -/
class Scalar (α : Type) extends
    Add α, Sub α, Mul α, Div α, Neg α, Zero α, One α, NatCast α, LT α, LE α, BEq α where
  /-- The strict order can be tested. -/
  decLt : DecidableLT α
  /-- The order can be tested. -/
  decLe : DecidableLE α

attribute [reducible] Scalar.decLt Scalar.decLe
attribute [instance] Scalar.decLt Scalar.decLe

/-- What a test against rounding has to know about the numbers. -/
class Precision (α : Type) where
  /-- The distance from one to the next larger number. -/
  epsilon : α
  /-- Neither infinite nor undefined. -/
  isFinite : α → Bool

/-- Roots, powers, circular functions and the constants that belong to them. -/
class Analytic (α : Type) where
  /-- Square root. -/
  sqrt : α → α
  /-- Power with a real exponent. -/
  pow : α → α → α
  /-- Sine of an angle in radians. -/
  sin : α → α
  /-- Cosine of an angle in radians. -/
  cos : α → α
  /-- Angle in `[0, π]` of a cosine. -/
  acos : α → α
  /-- Angle of the direction `(x, y)`; the ordinate `y` is the first argument. -/
  atan2 : α → α → α
  /-- The constant `1 / √2`. -/
  invSqrtTwo : α
  /-- A quarter turn, `π / 2`. -/
  halfPi : α
  /-- A full turn, `2 π`. -/
  tau : α
  /-- The least whole number not below a positive number, if it fits a count. -/
  ceil? : α → Option Nat

/-- Numerical integration of functions on `α`, with sums that run in `ω`. -/
class Quadrature (α : Type) (ω : outParam Type) where
  /-- A number as a summand. -/
  widen : α → ω
  /-- A sum as a number. -/
  narrow : ω → α
  /-- The nodes of the rule of the given size on `[-1, 1]`, each with its weight. -/
  rule : Nat → List (ω × ω)

/-! ## §2. Derived operations. -/

namespace Scalar

variable {α : Type} [Scalar α]

/-- One half. -/
def half : α := 1 / ((2 : Nat) : α)

/-- Two coordinates or knots closer than this count as equal: `2⁻³²`. -/
def zeroTolerance : α := 1 / ((4294967296 : Nat) : α)

/-- Absolute value. -/
def abs (a : α) : α := if a < 0 then -a else a

/-- The larger of two numbers; an undefined one gives way to the other. -/
def maxNum (a b : α) : α :=
  if b ≤ a then a else if a ≤ b then b else if a == a then a else b

/-- The smaller of two numbers; an undefined one gives way to the other. -/
def minNum (a b : α) : α :=
  if a ≤ b then a else if b ≤ a then b else if a == a then a else b

/-- The point of the interval `[lo, hi]` nearest to `u`. -/
def clamp (lo hi u : α) : α :=
  if u < lo then lo else if hi < u then hi else u

/-- A weight that a homogeneous control point may carry: positive and finite. -/
def isWeight [Precision α] (w : α) : Bool :=
  decide (0 < w) && Precision.isFinite w

end Scalar

end RationalSpline
