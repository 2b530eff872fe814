/-
  RationalSpline.Decimal.Shortest
  ───────────────────────────────
  THE FEWEST DIGITS THAT READ BACK.

  Around each binary number lies an interval of reals that round to it, ends
  included when its mantissa is even.  A decimal reads back as the number when it
  lies in the interval.  On the grid of so many digits the two neighbours of the
  number are tried; the first grid with a hit gives the digits.  Of two hits the nearer
  one is taken, and the greater one when the number lies in the middle.
-/
import RationalSpline.Decimal.Rounded

namespace RationalSpline.Decimal

/-- The leading decimal place of the positive quotient `n / d`. -/
def leadingPlace (n d : Nat) : Int :=
  if d ≤ n then (digitCount (n / d) : Int) - 1
  else
    let zeros := digitCount (d / n)
    if d ≤ n * Nat.pow 10 (zeros - 1) then -((zeros - 1 : Nat) : Int) else -(zeros : Int)

/-- The interval of a mantissa in quarters of its unit: lower end, upper end, and
whether they belong to it.  Below a power of two the numbers lie twice as dense. -/
def interval (bits : Nat) (minExponent : Int) (mantissa : Nat) (exponent : Int) :
    Nat × Nat × Bool :=
  let lower :=
    if mantissa = Nat.pow 2 (bits - 1) ∧ minExponent < exponent then 4 * mantissa - 1
    else 4 * mantissa - 2
  (lower, 4 * mantissa + 2, mantissa % 2 == 0)

/-- The digits on the grid of the given place that read back: the nearer of two, and of
two equally near the greater. -/
def hit? (bounds : Nat × Nat × Bool) (mantissa : Nat) (exponent place : Int) : Option Nat :=
  let (lower, upper, closed) := bounds
  let (n, d) := fraction (4 * mantissa) (exponent - 2) (-place)
  let below := n / d
  -- grid point `k` lies at `k·scale`, the ends of the interval at multiples of `unit`
  let (unit, scale) := fraction 1 (exponent - 2) (-place)
  let inside (k : Nat) : Bool :=
    if closed then decide (lower * unit ≤ k * scale ∧ k * scale ≤ upper * unit)
    else decide (lower * unit < k * scale ∧ k * scale < upper * unit)
  match inside below, inside (below + 1) with
  | true, true => some (if 2 * (n % d) < d then below else below + 1)
  | true, false => some below
  | false, true => some (below + 1)
  | false, false => none

/-- Try grids with more and more digits. -/
def search (bounds : Nat × Nat × Bool) (mantissa : Nat) (exponent : Int) :
    Nat → Int → Nat × Int
  | 0, place => (0, place)
  | tries + 1, place =>
      match hit? bounds mantissa exponent place with
      | some digits => (digits, place)
      | none => search bounds mantissa exponent tries (place - 1)

/-- The shortest decimal that reads back as `± mantissa·2^exponent`. -/
def shortest (bits : Nat) (minExponent : Int) (negative : Bool) (mantissa : Nat)
    (exponent : Int) : Decimal :=
  if mantissa = 0 then ⟨negative, 0, 0⟩
  else
    -- no format needs as many as 20 digits
    let (n, d) := fraction mantissa exponent 0
    let bounds := interval bits minExponent mantissa exponent
    let (digits, place) := search bounds mantissa exponent 20 (leadingPlace n d)
    ⟨negative, digits, place⟩

/-- The text of a number in messages: its shortest decimal in plain notation. -/
def text {α : Type} [Binary α] (x : α) : String :=
  match Binary.value x with
  | .undefined => "NaN"
  | .infinite negative => if negative then "-inf" else "inf"
  | .finite negative mantissa exponent =>
      (shortest (Binary.mantissaBits α) (Binary.minExponent α) negative mantissa exponent).plain

end RationalSpline.Decimal
