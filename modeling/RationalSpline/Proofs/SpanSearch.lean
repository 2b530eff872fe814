/-
  RationalSpline.Proofs.SpanSearch
  ────────────────────────────────
  THE SEARCH ENDS, AND ON A SPAN THAT CAN BE USED.

  The bisection is a loop that moves one of its two bounds to the midpoint.  On knots in
  any order, of any kind of numbers, a round that does not end the loop leaves at most
  half of the distance between the bounds, rounded up (`bisectWithin?_eq`).  So 65 rounds
  are enough for a vector whose indices are words.

  On a valid curve the span that is picked is not empty and has the control points of a
  full window, whatever the parameter, as long as it is a number.  Only comparisons decide
  that, so it holds of numbers that round (`Curve.Arranged.spanAt_spec`).

  In exact numbers every support around such a span has positive length, and these lengths
  are the only divisors of the basis functions and their derivatives.  Their computation
  rounds: far outside the domain the two parts of a support may lose the knots beside the
  parameter, and the support its length.
-/
import RationalSpline.Proofs.DefinedDerivatives
import RationalSpline.Proofs.Evaluation
import RationalSpline.Proofs.FloatingOrder
import RationalSpline.Proofs.GuardedDivision

namespace RationalSpline

namespace KnotVector

section Rounds

variable {α : Type} [Scalar α] {U : KnotVector α} {p n : Nat}

/-! ## §1. The loop. -/

/-- The bisection as a loop of so many rounds at most: the two bounds, and the midpoint that the
next round looks at. -/
def bisectWithin? (U : KnotVector α) (u : α) : Nat → Nat → Nat → Nat → Option Nat
  | 0, _, _, _ => none
  | rounds + 1, low, high, middle => do
      let early := decide (u < (← U.values[middle]?))
      -- the knot behind the midpoint is read only if that at the midpoint does not decide
      let late ← if early then some false else (U.values[middle + 1]?).map fun k => decide (k ≤ u)
      if early || late then
        let (low, high) := if early then (low, middle) else (middle, high)
        let next := (low + high) / 2
        if next = middle then return middle else bisectWithin? U u rounds low high next
      else return middle

/-- One round: what it reads, and where it goes on. -/
theorem bisectWithin?_round (U : KnotVector α) (u : α) (rounds low high middle : Nat) :
    U.bisectWithin? u (rounds + 1) low high middle =
      (U.values[middle]?).bind fun k =>
        if u < k then
          if (low + middle) / 2 = middle then some middle
          else U.bisectWithin? u rounds low middle ((low + middle) / 2)
        else (U.values[middle + 1]?).bind fun k' =>
          if k' ≤ u then
            if (middle + high) / 2 = middle then some middle
            else U.bisectWithin? u rounds middle high ((middle + high) / 2)
          else some middle := by
  rw [bisectWithin?]
  refine congrArg _ (funext fun k => ?_)
  by_cases early : u < k
  · simp [early]
  · cases U.values[middle + 1]? with
    | none => simp [early]
    | some k' =>
        by_cases late : k' ≤ u
        · simp [early, late]
        · simp [early, late]

/-- Bounds that are apart by more than one leave a round. -/
theorem exists_round {distance rounds : Nat} (near : distance ≤ 2 ^ rounds) (far : 1 < distance) :
    ∃ left, rounds = left + 1 := by
  cases rounds with
  | zero => exact absurd near (not_le.2 far)
  | succ left => exact ⟨left, rfl⟩

/-- **A round that does not end the loop halves the distance of the bounds**, so one round more
than halvings ends it, as the bisection ends. -/
theorem bisectWithin?_eq (U : KnotVector α) (u : α) {low high rounds : Nat}
    (near : (high - low) + (low - high) ≤ 2 ^ rounds) :
    U.bisectWithin? u (rounds + 1) low high ((low + high) / 2) = U.bisect? u low high := by
  rw [bisectWithin?_round, U.bisect?_eq_bind u low high]
  refine Option.bind_congr fun k _ => ?_
  -- where it goes on, the bounds are half as far apart, and the rounds that are left are enough
  split
  · split
    · rfl
    · obtain ⟨left, rfl⟩ : ∃ left, rounds = left + 1 := exists_round near (by omega)
      rw [Nat.pow_succ] at near
      exact bisectWithin?_eq U u (by omega)
  · refine Option.bind_congr fun k' _ => ?_
    split
    · split
      · rfl
      · obtain ⟨left, rfl⟩ : ∃ left, rounds = left + 1 := exists_round near (by omega)
        rw [Nat.pow_succ] at near
        exact bisectWithin?_eq U u (by omega)
    · rfl
termination_by rounds

variable [Precision α]

/-- The search for the span of `u`, with so many rounds of bisection at most. -/
def spanWithin? (U : KnotVector α) (rounds n p : Nat) (u : α) : Option Nat := do
  let last ← U.values[← Word.unsigned? (n + 1)]?
  if last - Precision.epsilon < u then return n
  let first ← U.values[p]?
  if u < first + Precision.epsilon then return p
  U.bisectWithin? u rounds p (n + 1) ((p + (n + 1)) / 2)

/-- **65 rounds are enough on any knots**, whether the search meets all knots it needs or not. -/
theorem spanWithin?_eq (U : KnotVector α) (n p : Nat) (u : α) (words : U.size ≤ countLimit) :
    U.spanWithin? 65 n p u = U.span? n p u := by
  have limit : countLimit = 2 ^ 64 := rfl
  by_cases last : n + 1 < U.size
  · by_cases first : p < U.size
    · have near : (n + 1 - p) + (p - (n + 1)) ≤ 2 ^ 64 := by omega
      rw [spanWithin?, span?, U.bisectWithin?_eq u near]
    · -- both stop before the loop, at the lower index
      have missing : U.values[p]? = none := List.getElem?_eq_none (Nat.le_of_not_lt first)
      rw [spanWithin?, span?, missing]
      rfl
  · -- or at the upper one, which may not even be a word
    have missing : ∀ m, Word.unsigned? (n + 1) = some m → U.values[m]? = none := by
      intro m word
      have index : m = n + 1 := by
        have := Word.of_unsigned?_eq_some word
        omega
      exact List.getElem?_eq_none (index ▸ Nat.le_of_not_lt last)
    rw [spanWithin?, span?]
    cases word : Word.unsigned? (n + 1) with
    | none => rfl
    | some m => simp only [Option.bind_eq_bind, Option.bind_some, missing m word, Option.bind_none]

end Rounds

/-- **Bisection between knots in order ends on the span of the parameter**, or on the first or
the last one if the parameter lies outside. -/
theorem bisect_mem_span {α : Type} [Scalar α] [Scalar.ComparesTotally α] {U : KnotVector α}
    {u : α} (self : u ≤ u) {low high : Nat} (lt : low < high)
    (ordered : ∀ i j, low ≤ i → i ≤ j → j ≤ high → U.knot i ≤ U.knot j) :
    low ≤ U.bisect u low high ∧ U.bisect u low high < high
      ∧ (U.knot (U.bisect u low high) ≤ u ∨ U.bisect u low high = low ∧ u < U.knot low)
      ∧ (u < U.knot (U.bisect u low high + 1) ∨ U.bisect u low high + 1 = high) := by
  fun_induction U.bisect u low high with
  | case1 low high middle below still =>
      -- a midpoint that stands still is the lower bound
      have same : middle = low := by omega
      rw [same] at below ⊢
      refine ⟨le_rfl, lt, .inr ⟨rfl, below⟩, .inl ?_⟩
      exact Scalar.lt_of_lt_of_le below (ordered _ _ le_rfl (Nat.le_succ _) lt)
  | case2 low high middle below moves ih =>
      obtain ⟨first, last, start, finish⟩ := ih (by omega)
        fun i j hi le hj => ordered i j hi le (by omega)
      refine ⟨first, by omega, start, .inl ?_⟩
      rcases finish with finish | same
      · exact finish
      · rwa [same]
  | case3 low high middle below beyond still =>
      have reached :=
        Scalar.le_of_not_lt self (ordered middle middle (by omega) le_rfl (by omega)) below
      exact ⟨by omega, by omega, .inl reached, .inr (by omega)⟩
  | case4 low high middle below beyond moves ih =>
      obtain ⟨first, last, start, finish⟩ := ih (by omega)
        fun i j hi le hj => ordered i j (by omega) le hj
      refine ⟨by omega, last, .inl ?_, finish⟩
      rcases start with start | ⟨-, before⟩
      · exact start
      · exact absurd before below
  | case5 low high middle below beyond =>
      have reached :=
        Scalar.le_of_not_lt self (ordered middle middle (by omega) le_rfl (by omega)) below
      have ends := Scalar.lt_of_not_le self (ordered _ _ (by omega) le_rfl (by omega)) beyond
      exact ⟨by omega, by omega, .inl reached, .inl ends⟩

end KnotVector

/-! ## §2. The span of a parameter. -/

namespace Curve

open KnotVector

section Compared

variable {α : Type} [Scalar α] {c : Curve α}

/-- The ends of the domain on the padded knots, and the spans that touch them. -/
theorem Arranged.padded_ends [Scalar.ComparesTotally α] (h : c.Arranged) :
    c.domain.1 = c.spline.knots.knot c.degree
      ∧ c.domain.2 = c.spline.knots.knot c.pointCount
      ∧ c.spline.knots.knot c.degree < c.spline.knots.knot (c.degree + 1)
      ∧ c.spline.knots.knot (c.pointCount - 1) < c.spline.knots.knot c.pointCount := by
  obtain ⟨two, enough, size, degree⟩ := h.counts
  have padded : ∀ i < c.knots.size, c.spline.knots.knot (i + 1) = c.knots.knot i := fun i hi =>
    c.knots.knot_padded c.order hi
  have start : c.domain.1 = c.spline.knots.knot c.degree := by
    rw [show c.degree = c.order - 2 + 1 by omega, padded _ (by omega)]
    rfl
  have finish : c.domain.2 = c.spline.knots.knot c.pointCount := by
    rw [h.finish_eq, ← padded _ (by omega), Nat.sub_add_cancel (by omega)]
  refine ⟨start, finish, ?_, ?_⟩
  · rw [← start, padded _ (by omega), degree]
    exact h.knot_lt (Nat.sub_le_sub_left (by omega) _) (by omega) h.first_span
  · rw [← finish, h.finish_eq, show c.pointCount - 1 = c.pointCount - 2 + 1 by omega,
        padded _ (by omega)]
    exact h.knot_lt (by omega) (by omega)
      (by rw [show c.pointCount - 2 + 1 = c.pointCount - 1 by omega]; exact h.last_span)

/-- Within the tolerance of an end its span is picked, and elsewhere the bisection picks. -/
theorem Arranged.spanAt_eq [Scalar.ComparesTotally α] [Precision α] (h : c.Arranged) (t : α) :
    c.spline.spanAt t = if c.domain.2 - Precision.epsilon < t then c.pointCount - 1
      else if t < c.domain.1 + Precision.epsilon then c.degree
      else c.spline.knots.bisect t c.degree c.pointCount := by
  obtain ⟨start, finish, -⟩ := h.padded_ends
  obtain ⟨two, enough, -⟩ := h.counts
  rw [Spline.spanAt, KnotVector.span, start, finish]
  show (if c.spline.knots.knot (c.pointCount - 1 + 1) - _ < t then _ else if _ then _
    else c.spline.knots.bisect t c.degree (c.pointCount - 1 + 1)) = _
  rw [show c.pointCount - 1 + 1 = c.pointCount by omega]
  rfl

/-- **Whatever span is picked, it is not empty and has a full window**, in all numbers that
compare; and between the tolerances at the ends of the domain it holds the parameter. -/
theorem Arranged.spanAt_spec [Scalar.ComparesTotally α] [Precision α] (h : c.Arranged) {t : α}
    (self : t ≤ t) :
    c.degree ≤ c.spline.spanAt t ∧ c.spline.spanAt t < c.pointCount
      ∧ c.spline.knots.knot (c.spline.spanAt t) < c.spline.knots.knot (c.spline.spanAt t + 1)
      ∧ (¬c.domain.2 - Precision.epsilon < t → ¬t < c.domain.1 + Precision.epsilon →
        c.domain.1 ≤ t → t < c.domain.2 →
          c.spline.knots.knot (c.spline.spanAt t) ≤ t
            ∧ t < c.spline.knots.knot (c.spline.spanAt t + 1)) := by
  obtain ⟨two, enough, size, degree⟩ := h.counts
  obtain ⟨start, finish, first, last⟩ := h.padded_ends
  have whole : c.pointCount - 1 + 1 = c.pointCount := by omega
  obtain ⟨low, high, below, above⟩ := bisect_mem_span (U := c.spline.knots) self
    (show c.degree < c.pointCount by omega) fun i j hi le hj =>
      h.knot_spline_le (by omega) le (by omega)
  rw [h.spanAt_eq]
  split_ifs with late early
  · rw [whole]
    exact ⟨by omega, by omega, last, fun inside => absurd late inside⟩
  · exact ⟨le_rfl, by omega, first, fun _ inside => absurd early inside⟩
  · refine ⟨low, high, ?_, fun _ _ from_ upTo => ⟨?_, ?_⟩⟩
    · -- the bisection ends on the first span, on the last, or on one that holds the parameter
      rcases below with below | ⟨same, -⟩
      · rcases above with above | same
        · exact Scalar.lt_of_le_of_lt below above
        · rw [same, show c.spline.knots.bisect t c.degree c.pointCount = c.pointCount - 1 by omega]
          exact last
      · rw [same]
        exact first
    · exact below.resolve_right fun before => Scalar.not_le_of_lt before.2 (start ▸ from_)
    · rcases above with above | same
      · exact above
      · rw [same, ← finish]
        exact upTo

end Compared

variable {K : Type} [Field K] [LinearOrder K] [IsStrictOrderedRing K] [Precision K]
  [Precision.Exact K] {c : Curve K} {t : K}

omit [Precision.Exact K] in
/-- A parameter as far as the spacing from both ends is in the span that is picked. -/
theorem Regular.spanAt_holds (h : c.Regular) (pos : (0 : K) < Precision.epsilon)
    (h₀ : c.domain.1 + Precision.epsilon ≤ t) (h₁ : t ≤ c.domain.2 - Precision.epsilon) :
    c.spline.knots.knot (c.spline.spanAt t) ≤ t
      ∧ t < c.spline.knots.knot (c.spline.spanAt t + 1) := by
  obtain ⟨two, enough, size, degree⟩ := h.counts
  have start : c.spline.knots.knot c.degree ≤ t := by
    rw [← h.toSound.domain_start]
    linarith
  obtain ⟨-, -, below, above⟩ :=
    c.spline.knots.bisect_spec t (show c.degree < c.pointCount by omega) start
  rw [h.toSound.spanAt_eq, if_neg (not_lt.2 h₁), if_neg (not_lt.2 h₀)]
  refine ⟨below, ?_⟩
  -- the bisection may also end at its upper bound, where the domain ends
  rcases above with above | last
  · exact above
  · rw [last, ← h.toSound.domain_finish]
    linarith

/-- All supports around the span that is picked have positive length. -/
theorem Regular.supported (h : c.Regular) (t : K) :
    c.spline.knots.Supported (c.spline.spanAt t) c.degree t := by
  have size := size_padded_knots h.toSound
  have length : c.points.vectors.length = c.pointCount := rfl
  obtain ⟨-, high, span, -⟩ := h.spanAt_spec t
  exact h.toSound.ordered_padded.supported (by omega) span t

/-- **The search always lands on a usable span.**

On any knots, of any numbers, it ends within 65 rounds, with a result if the indices it starts
from are there.  On a valid curve, of any numbers that compare, it lands at every parameter on a
span that is not empty and has a full window of control points; between the tolerances at the ends
of the domain the span holds the parameter.

In exact numbers the tolerances are the spacing of the numbers, and all divisors of the basis
functions and of their derivatives are positive: numbers that refuse any other division give the
same. -/
theorem spanSearch_usable (pos : (0 : K) < Precision.epsilon) (valid : c.isValid = true) :
    (∀ (α : Type) [Scalar α] [Precision α] (U : KnotVector α) (n p : Nat) (u : α),
        U.size ≤ countLimit → U.spanWithin? 65 n p u = U.span? n p u
          ∧ (U.Reads p (n + 1) → ∃ i, U.span? n p u = some i))
      ∧ (∀ (α : Type) [Scalar α] [Scalar.ComparesTotally α] [Precision α] (c : Curve α) (t : α),
        c.isValid = true → t ≤ t →
          ∃ i, c.spline.spanAt t = i ∧ c.degree ≤ i ∧ i ≤ c.pointCount - 1
            ∧ c.spline.knots.knot i < c.spline.knots.knot (i + 1)
            ∧ (c.knotCount + 2 ≤ countLimit →
              c.knots.padded? c.order = some c.spline.knots
                ∧ c.spline.knots.span? (c.pointCount - 1) c.degree t = some i)
            ∧ (¬c.domain.2 - Precision.epsilon < t → ¬t < c.domain.1 + Precision.epsilon →
              c.domain.1 ≤ t → t < c.domain.2 →
                c.spline.knots.knot i ≤ t ∧ t < c.spline.knots.knot (i + 1)))
      ∧ ∀ t, ∃ i, c.spline.spanAt t = i
        ∧ (c.domain.1 + Precision.epsilon ≤ t → t ≤ c.domain.2 - Precision.epsilon →
          c.spline.knots.knot i ≤ t ∧ t < c.spline.knots.knot (i + 1))
        ∧ (∀ j ≤ c.degree, ∀ r < j, 0 < c.spline.knots.support i t j r)
        ∧ (c.knotCount + 2 ≤ countLimit →
          (c.spline.knots.map Guarded.of).basisInPlace? i c.degree (Guarded.of t)
              = some ((c.spline.knots.basisRow i t c.degree).map Guarded.of)
            ∧ ∀ count,
              (c.spline.knots.map Guarded.of).derivativeRows? i c.degree (Guarded.of t) count
                = (c.spline.knots.derivativeRows? i c.degree t count).map
                  (List.map (List.map Guarded.of))) := by
  refine ⟨fun α _ _ U n p u words => ⟨U.spanWithin?_eq n p u words, fun reads =>
    ⟨U.span n p u, span?_eq u reads words⟩⟩, fun α _ _ _ c t valid self => ?_, fun t => ?_⟩
  · have arranged := arranged_of_isValid valid
    obtain ⟨two, enough, knots, degree⟩ := arranged.counts
    have size : c.spline.knots.size = c.knots.size + 2 := c.size_knots_spline
    obtain ⟨low, high, span, holds⟩ := arranged.spanAt_spec self
    refine ⟨_, rfl, low, by omega, span, fun words => ⟨?_, ?_⟩, holds⟩
    · exact if_pos (decide_eq_true ⟨two, by omega⟩)
    · exact span?_eq t ⟨by omega, by omega, by omega⟩ (by rw [size]; exact words)
  · have regular := regular_of_isValid valid
    have two := regular.two_le_order
    have enough := regular.order_le
    have knots := regular.knotCount_eq
    have degree : c.degree = c.order - 1 := rfl
    have size : c.spline.knots.size = c.knotCount + 2 := c.size_knots_spline
    obtain ⟨low, high, span, -⟩ := regular.spanAt_spec t
    -- numbers that refuse to be divided by what is not positive see the supports as divisors
    have supported := regular.supported t
    refine ⟨_, rfl, regular.spanAt_holds pos, supported, fun words => ⟨?_, ?_⟩⟩
    · have there : c.spline.knots.hasBasis (c.spline.spanAt t) c.degree = true :=
        decide_eq_true (Or.inr ⟨by omega, by omega⟩)
      rw [basisInPlace?_guarded supported (by omega), exists_basisArray there (by omega)]
      rfl
    · exact derivativeRows?_guarded supported (by omega) (by omega) (by omega)

/-- In the middle of the domain of an unclamped curve. -/
theorem spanSearch_openStart :
    (0 : ℚ) < Precision.epsilon ∧ openStart.isValid = true
      ∧ openStart.spline.knots.span? 3 2 (5 / 2) = some 3
      ∧ openStart.spline.knots.knot 3 ≤ 5 / 2 ∧ 5 / 2 < openStart.spline.knots.knot 4 := by
  have pos : (0 : ℚ) < Precision.epsilon := by decide +kernel
  have valid : openStart.isValid = true := by decide +kernel
  obtain ⟨-, compared, exact_⟩ := spanSearch_usable pos valid
  obtain ⟨i, picked, -, -, -, rest, -⟩ := compared ℚ openStart (5 / 2) valid le_rfl
  obtain ⟨-, found⟩ := rest (by decide +kernel)
  obtain ⟨i', picked', holds, -⟩ := exact_ (5 / 2)
  have three : openStart.spline.knots.span? 3 2 (5 / 2) = some 3 := by decide +kernel
  obtain rfl : 3 = i := Option.some.inj (three.symm.trans found)
  obtain rfl : 3 = i' := picked.symm.trans picked'
  exact ⟨pos, valid, three, holds (by decide +kernel) (by decide +kernel)⟩

/-- The line from 0 to 1 in double precision. -/
def unitLine : Curve Float := ⟨1, 2, .cartesian [[0], [1]], ⟨[0, 1]⟩⟩

/-- Two lines, the second of them three times as long. -/
def longLine : Curve Float := ⟨1, 2, .cartesian [[0], [1], [4]], ⟨[0, 1, 4]⟩⟩

/-- A parabola with a break between two equal knots. -/
def brokenParabola : Curve Float :=
  ⟨1, 3, .cartesian [[0], [0], [1], [0], [0]], ⟨[0, 0, 1, 1, 2, 2]⟩⟩

/-- In double precision a divisor may be 0 far outside the domain; a parameter may be as far from
the end as the spacing at one and not lie in its span, because the spacing there is wider; and what
is no number lies between two knots that are equal. -/
theorem unitLine_support :
    unitLine.isValid = true ∧ unitLine.spline.spanAt 1e17 = 1
      ∧ unitLine.spline.knots.support 1 1e17 1 0 = 0
      ∧ longLine.isValid = true ∧ longLine.domain.1 + Precision.epsilon ≤ 4
      ∧ 4 ≤ longLine.domain.2 - Precision.epsilon
      ∧ longLine.spline.knots.knot (longLine.spline.spanAt 4 + 1) ≤ 4
      ∧ brokenParabola.isValid = true
      ∧ brokenParabola.spline.knots.knot (brokenParabola.spline.spanAt (0 / 0) + 1)
        ≤ brokenParabola.spline.knots.knot (brokenParabola.spline.spanAt (0 / 0)) := by
  decide +kernel

end Curve

end RationalSpline
