/-
  RationalSpline.KnotVector.Basic
  ───────────────────────────────
  KNOT VECTORS.

  A knot vector is stored in its compact form: a curve with `n` control points
  and order `k` has `n + k - 2` knots.  The *padded* form has one more knot at
  either end, `n + k` in all; span search, basis functions and knot insertion
  are stated on it.  The two end knots influence no curve: they only complete
  the index pattern of the recurrences.

  A reading such as `domain` is total, with 0 for a knot that is not there; its
  companion `domain?` gives `none` where a knot it needs is missing.
-/
import RationalSpline.Scalar
import RationalSpline.Sequence

namespace RationalSpline

/-- A list of knots. -/
structure KnotVector (α : Type) where
  /-- The knots, in order. -/
  values : List α
  deriving Repr, DecidableEq

/-- One of the two ends of a curve or of its knots. -/
inductive CurveEnd where
  | start
  | finish
  deriving Repr, DecidableEq

namespace KnotVector

variable {α : Type}

/-- The number of knots. -/
def size (U : KnotVector α) : Nat := U.values.length

/-- Whether there are no knots. -/
def isEmpty (U : KnotVector α) : Bool := U.values.isEmpty

/-- The first and the last knot. -/
def ends? (U : KnotVector α) : Option (α × α) :=
  match U.values.head?, U.values.getLast? with
  | some a, some b => some (a, b)
  | _, _ => none

/-- The knots in other numbers. -/
def map {β : Type} (f : α → β) (U : KnotVector α) : KnotVector β := ⟨U.values.map f⟩

@[simp] theorem size_map {β : Type} (f : α → β) (U : KnotVector α) :
    (U.map f).size = U.size := by
  simp [map, size]

/-- The knots without the first and the last. -/
def unpadded (U : KnotVector α) : KnotVector α := ⟨U.values.tail.dropLast⟩

@[simp] theorem size_unpadded (U : KnotVector α) : U.unpadded.size = U.size - 2 := by
  simp only [unpadded, size, List.length_dropLast, List.length_tail]
  omega

variable [Scalar α]

/-- The knot at an index, 0 beyond the last. -/
def knot (U : KnotVector α) (i : Nat) : α := U.values.getD i 0

/-! ## §1. The domain. -/

/-- The parameter interval of a curve of the given order. -/
def domain (U : KnotVector α) (order : Nat) : α × α :=
  (U.knot (order - 2), U.knot (U.size + 1 - order))

/-- Both ends of the domain are knots of the vector. -/
def hasDomain (U : KnotVector α) (order : Nat) : Bool :=
  decide (2 ≤ order ∧ order < U.size + 2)

/-- The parameter interval, if the vector reaches it. -/
def domain? (U : KnotVector α) (order : Nat) : Option (α × α) :=
  if U.hasDomain order then some (U.domain order) else none

/-- The parameter of the domain nearest to `u`. -/
def clamp? (U : KnotVector α) (order : Nat) (u : α) : Option α :=
  (U.domain? order).map fun (t0, t1) => Scalar.clamp t0 t1 u

/-- The distinct knots from `lower` to `upper` that are larger than all before. -/
def boundaries (lower upper : α) (last : Option α) : List α → List α
  | [] => []
  | k :: ks =>
      if lower ≤ k ∧ k ≤ upper ∧ (last.all fun b => decide (b < k)) = true then
        k :: boundaries lower upper (some k) ks
      else boundaries lower upper last ks

/-- The knots of the closed domain, with repetitions. -/
def domainKnots (U : KnotVector α) (order : Nat) : List α :=
  (U.values.drop (order - 2)).take (U.size + 2 - order - (order - 2))

/-- The boundaries of the non-empty spans: the distinct knots of the domain. -/
def spanVector (U : KnotVector α) (order : Nat) : List α :=
  let (t0, t1) := U.domain order
  boundaries t0 t1 none (U.domainKnots order)

/-- The span boundaries; the domain may not end more than one knot before it starts. -/
def spanVector? (U : KnotVector α) (order : Nat) : Option (List α) :=
  if U.hasDomain order ∧ order - 2 ≤ U.size + 2 - order then some (U.spanVector order)
  else none

/-! ## §2. Order and search. -/

/-- No knot is smaller than the one before it. -/
def isNonDecreasing (U : KnotVector α) : Bool :=
  (Sequence.neighbours U.values).all fun (a, b) => decide (a ≤ b)

/-- The index of the last knot not above `u`. -/
def floor? (U : KnotVector α) (u : α) : Option Nat :=
  Sequence.lastIndex? (fun k => decide (k ≤ u)) U.values

/-- The number of knots equal to `u`. -/
def count (U : KnotVector α) (u : α) : Nat := U.values.countP (· == u)

/-! ## §3. The ends. -/

/-- Whether the end knot has full multiplicity: `order - 1` equal knots. -/
def isClamped (U : KnotVector α) (order : Nat) : CurveEnd → Bool
  | .start => U.knot 0 == U.knot (order - 2)
  | .finish => U.knot (U.size - 1) == U.knot (U.size + 1 - order)

/-- The knot that padding adds at an end: the end knot of a clamped end, otherwise
the one that continues the spacing of the two outermost knots. -/
def superfluous (U : KnotVector α) (order : Nat) (e : CurveEnd) : α :=
  if U.isClamped order e ∨ U.size < 2 then
    match e with
    | .start => U.knot 0
    | .finish => U.knot (U.size - 1)
  else
    match e with
    | .start => U.knot 0 + U.knot 0 - U.knot 1
    | .finish => U.knot (U.size - 1) + U.knot (U.size - 1) - U.knot (U.size - 2)

/-- The knots with one more at either end. -/
def padded (U : KnotVector α) (order : Nat) : KnotVector α :=
  ⟨U.superfluous order .start :: U.values ++ [U.superfluous order .finish]⟩

@[simp] theorem size_padded (U : KnotVector α) (order : Nat) :
    (U.padded order).size = U.size + 2 := by
  simp [padded, size]

@[simp] theorem unpadded_padded (U : KnotVector α) (order : Nat) :
    (U.padded order).unpadded = U := by
  simp [padded, unpadded]

/-- Padding moves every knot up by one place. -/
theorem knot_padded (U : KnotVector α) (order : Nat) {i : Nat} (h : i < U.size) :
    (U.padded order).knot (i + 1) = U.knot i := by
  have inside : i < U.values.length := h
  simp [padded, knot, List.getD_eq_getElem?_getD, List.getElem?_append_left inside]

/-- Whether an end is clamped, if the vector reaches its multiplicity. -/
def isClamped? (U : KnotVector α) (order : Nat) (e : CurveEnd) : Option Bool :=
  if U.hasDomain order then some (U.isClamped order e) else none

/-- The knot that padding adds, where the vector has the knots to tell. -/
def superfluous? (U : KnotVector α) (order : Nat) (e : CurveEnd) : Option α :=
  if U.hasDomain order then some (U.superfluous order e) else none

/-- The padded form, where the vector has the knots to tell. -/
def padded? (U : KnotVector α) (order : Nat) : Option (KnotVector α) :=
  if U.hasDomain order then some (U.padded order) else none

/-- The vector without its outermost knots, of which there must be two. -/
def unpadded? (U : KnotVector α) : Option (KnotVector α) :=
  if 2 ≤ U.size then some U.unpadded else none

/-! ## §4. Averages and affine changes. -/

/-- The average of the `order - 1` knots from `i` on: where the control point `i`
of the straight line sits. -/
def greville (U : KnotVector α) (order i : Nat) : α :=
  ((U.values.drop i).take (order - 1)).foldl (· + ·) 0 / ((order - 1 : Nat) : α)

/-- The average, if the vector has these knots. -/
def greville? (U : KnotVector α) (order i : Nat) : Option α :=
  if 1 ≤ order ∧ i + (order - 1) ≤ U.size then some (U.greville order i) else none

/-- The knots under the affine map of the interval `source` to the interval
`target`.  Knots at the ends of `source` are sent to those of `target` exactly. -/
def remap (U : KnotVector α) (source target : α × α) : KnotVector α :=
  let scale := (target.2 - target.1) / (source.2 - source.1)
  ⟨U.values.map fun k =>
    if k == source.1 then target.1
    else if k == source.2 then target.2
    else target.1 + (k - source.1) * scale⟩

/-- The knots of the reversed curve: negated, in the opposite order. -/
def invert (U : KnotVector α) : KnotVector α := ⟨U.values.reverse.map (- ·)⟩

@[simp] theorem size_remap (U : KnotVector α) (source target : α × α) :
    (U.remap source target).size = U.size := by
  simp [remap, size]

@[simp] theorem size_invert (U : KnotVector α) : U.invert.size = U.size := by
  simp [invert, size]

end KnotVector

end RationalSpline
