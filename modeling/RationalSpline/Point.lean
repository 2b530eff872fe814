/-
  RationalSpline.Point
  ────────────────────
  COORDINATE VECTORS.

  A point is the list of its coordinates; its dimension is the length of the
  list.  Binary operations are coordinatewise.  The homogeneous form of a point
  `x` of weight `w` is `(w·x, w)`: the scaled coordinates, then the weight.
-/
import RationalSpline.Scalar

namespace RationalSpline

/-- A point, or a vector between points, as the list of its coordinates. -/
abbrev Point (α : Type) := List α

namespace Point

variable {α : Type} [Scalar α]

/-! ## §1. Linear operations. -/

/-- The origin of a space. -/
def zero (dimension : Nat) : Point α := List.replicate dimension 0

/-- Sum. -/
def add (p q : Point α) : Point α := List.zipWith (· + ·) p q

/-- Difference. -/
def sub (p q : Point α) : Point α := List.zipWith (· - ·) p q

/-- Sum of two points of one dimension. -/
def add? (p q : Point α) : Option (Point α) :=
  if p.length = q.length then some (add p q) else none

/-- Difference of two points of one dimension. -/
def sub? (p q : Point α) : Option (Point α) :=
  if p.length = q.length then some (sub p q) else none

/-- Product with a number. -/
def scale (p : Point α) (a : α) : Point α := p.map (· * a)

/-- Quotient by a number. -/
def divide (p : Point α) (a : α) : Point α := p.map (· / a)

/-- The affine combination `(1 - a)·p + a·q`. -/
def blend (a : α) (p q : Point α) : Point α :=
  add (scale q a) (scale p (1 - a))

/-- The combination of points with the coefficients at the same places. -/
def combine (dimension : Nat) (coefficients : List α) (points : List (Point α)) : Point α :=
  (coefficients.zip points).foldl (fun sum (b, p) => add sum (scale p b)) (zero dimension)

/-! The number of coordinates of a result. -/

@[simp] theorem length_zero (dimension : Nat) :
    (zero dimension : Point α).length = dimension := by
  simp [zero]

@[simp] theorem length_add (p q : Point α) : (add p q).length = min p.length q.length := by
  simp [add]

@[simp] theorem length_sub (p q : Point α) : (sub p q).length = min p.length q.length := by
  simp [sub]

@[simp] theorem length_scale (p : Point α) (a : α) : (scale p a).length = p.length := by
  simp [scale]

@[simp] theorem length_divide (p : Point α) (a : α) : (divide p a).length = p.length := by
  simp [divide]

@[simp] theorem length_blend (a : α) (p q : Point α) :
    (blend a p q).length = min q.length p.length := by
  simp [blend]

theorem length_combine {dimension : Nat} (coefficients : List α) {points : List (Point α)}
    (sizes : ∀ p ∈ points, p.length = dimension) :
    (combine dimension coefficients points).length = dimension := by
  suffices fold : ∀ (pairs : List (α × Point α)) (sum : Point α), sum.length = dimension →
      (∀ bp ∈ pairs, bp.2.length = dimension) →
      (pairs.foldl (fun sum (b, p) => add sum (scale p b)) sum).length = dimension from
    fold _ _ (length_zero dimension) fun _ member => sizes _ (List.of_mem_zip member).2
  intro pairs
  induction pairs with
  | nil => exact fun _ size _ => size
  | cons bp rest ih =>
      intro sum size sizes
      exact ih _ (by simp [size, sizes bp]) fun q member =>
        sizes q (List.mem_cons_of_mem _ member)

/-! ## §2. Lengths. -/

/-- Eight running sums, fed with eight numbers at a time, and the numbers left over. -/
def runningSums (sums : List α) : List α → List α × List α
  | a :: b :: c :: d :: e :: f :: g :: h :: rest =>
      runningSums (List.zipWith (· + ·) sums [a, b, c, d, e, f, g, h]) rest
  | rest => (sums, rest)

/-- The sum of numbers: eight running sums as far as the numbers fill them, joined in
pairs four apart, then the numbers left over. -/
def total (values : List α) : α :=
  let (sums, rest) := runningSums (List.replicate 8 0) values
  let joined := List.zipWith (· + ·) (sums.take 4) (sums.drop 4)
  rest.foldl (· + ·) (joined.foldl (· + ·) 0)

/-- Sum of the squared coordinates. -/
def normSquared (p : Point α) : α := total (p.map fun x => x * x)

/-- Euclidean length. -/
def norm [Analytic α] (p : Point α) : α := Analytic.sqrt (normSquared p)

/-- Distance from `p` to `q`. -/
def distance [Analytic α] (p q : Point α) : α := norm (sub q p)

/-! ## §3. Homogeneous coordinates. -/

/-- The weight of a homogeneous point: its last coordinate. -/
def weight (p : Point α) : α := p.getLastD 0

/-- The location of a homogeneous point. -/
def dehomogenize (p : Point α) : Point α := divide p.dropLast (weight p)

/-- The first coordinates, if there are so many. -/
def leading? (p : Point α) (dimension : Nat) : Option (Point α) :=
  if dimension ≤ p.length then some (p.take dimension) else none

/-- The homogeneous point of a location and a weight. -/
def homogenize (p : Point α) (w : α) : Point α := scale p w ++ [w]

@[simp] theorem length_dehomogenize (p : Point α) :
    (dehomogenize p).length = p.length - 1 := by
  simp [dehomogenize]

@[simp] theorem length_homogenize (p : Point α) (w : α) :
    (homogenize p w).length = p.length + 1 := by
  simp [homogenize]

@[simp] theorem weight_homogenize (p : Point α) (w : α) : (homogenize p w).weight = w := by
  simp [homogenize, weight]

/-- The location of a homogeneous point; no coordinates leave no weight. -/
def dehomogenize? (p : Point α) : Option (Point α) :=
  if p.isEmpty then none else some (dehomogenize p)

end Point

end RationalSpline
