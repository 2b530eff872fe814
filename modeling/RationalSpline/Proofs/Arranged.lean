/-
  RationalSpline.Proofs.Arranged
  ──────────────────────────────
  KNOTS IN ORDER, BY COMPARISONS ALONE.

  That knots do not decrease is checked between neighbours.  From neighbours to all knots
  the order spreads by four laws of comparison, which hold of exact numbers and of floating
  point as well (`Scalar.Compares`).

  A curve that passes the validity check is `Arranged`: its counts fit, its knots do not
  decrease, and its first and last spans are not empty.  What follows from that by
  comparisons holds in numbers that round.
-/
import RationalSpline.Proofs.Sound
import RationalSpline.Proofs.DerivativeTable

namespace RationalSpline

/-- What comparisons satisfy, on an ordered field and on floating point alike: an undefined
number compares with none, not even with itself. -/
class Scalar.Compares (α : Type) [Scalar α] : Prop where
  /-- The order is transitive. -/
  le_trans : ∀ {a b c : α}, a ≤ b → b ≤ c → a ≤ c
  /-- What compares with a number compares with itself. -/
  le_self : ∀ {a b : α}, a ≤ b → a ≤ a ∧ b ≤ b
  /-- The strict order. -/
  lt_iff : ∀ {a b : α}, a < b ↔ a ≤ b ∧ ¬b ≤ a
  /-- Equal numbers are below each other. -/
  beq_iff : ∀ {a b : α}, (a == b) = true ↔ a ≤ b ∧ b ≤ a

instance Scalar.exact_compares {K : Type} [Field K] [LinearOrder K] : Scalar.Compares K where
  le_trans h h' := h.trans h'
  le_self _ := ⟨le_refl _, le_refl _⟩
  lt_iff := lt_iff_le_not_ge
  beq_iff := beq_iff_eq.trans le_antisymm_iff

/-- Negation turns the order round. -/
class Scalar.Reverses (α : Type) [Scalar α] : Prop where
  /-- Negated numbers compare the other way. -/
  neg_le_neg_iff : ∀ {a b : α}, -a ≤ -b ↔ b ≤ a

instance Scalar.exact_reverses {K : Type} [Field K] [LinearOrder K] [IsStrictOrderedRing K] :
    Scalar.Reverses K where
  neg_le_neg_iff := neg_le_neg_iff

/-- Any two numbers compare, unless one of them is undefined. -/
class Scalar.ComparesTotally (α : Type) [Scalar α] : Prop extends Scalar.Compares α where
  /-- Numbers that compare with themselves compare with each other. -/
  le_total : ∀ {a b : α}, a ≤ a → b ≤ b → a ≤ b ∨ b ≤ a

instance Scalar.exact_comparesTotally {K : Type} [Field K] [LinearOrder K] :
    Scalar.ComparesTotally K where
  le_total _ _ := LinearOrder.le_total _ _

namespace Scalar

variable {α : Type} [Scalar α] {a b c : α}

theorem le_of_lt [Compares α] (h : a < b) : a ≤ b := (Compares.lt_iff.1 h).1

theorem not_le_of_lt [Compares α] (h : a < b) : ¬b ≤ a := (Compares.lt_iff.1 h).2

theorem lt_of_lt_of_le [Compares α] (h : a < b) (h' : b ≤ c) : a < c :=
  Compares.lt_iff.2 ⟨Compares.le_trans (le_of_lt h) h', fun back =>
    not_le_of_lt h (Compares.le_trans h' back)⟩

theorem lt_of_le_of_lt [Compares α] (h : a ≤ b) (h' : b < c) : a < c :=
  Compares.lt_iff.2 ⟨Compares.le_trans h (le_of_lt h'), fun back =>
    not_le_of_lt h' (Compares.le_trans back h)⟩

/-- Numbers in order are not equal. -/
theorem beq_eq_false_of_lt [Compares α] (h : a < b) : (a == b) = false :=
  Bool.eq_false_iff.2 fun same => not_le_of_lt h (Compares.beq_iff.1 same).2

theorem beq_eq_false_of_gt [Compares α] (h : a < b) : (b == a) = false :=
  Bool.eq_false_iff.2 fun same => not_le_of_lt h (Compares.beq_iff.1 same).1

/-- Of two numbers in order that are not equal, the first is below the second. -/
theorem lt_of_le_of_beq_eq_false [Compares α] (le : a ≤ b) (differ : (a == b) = false) : a < b :=
  Compares.lt_iff.2 ⟨le, fun back =>
    Bool.eq_false_iff.1 differ (Compares.beq_iff.2 ⟨le, back⟩)⟩

/-- Equal numbers are equal to the same numbers. -/
theorem beq_congr [Compares α] (h : (a == b) = true) (x : α) : (x == a) = (x == b) := by
  obtain ⟨ab, ba⟩ := Compares.beq_iff.1 h
  rw [Bool.eq_iff_iff, Compares.beq_iff, Compares.beq_iff]
  exact ⟨fun ⟨xa, ax⟩ => ⟨Compares.le_trans xa ab, Compares.le_trans ba ax⟩,
    fun ⟨xb, bx⟩ => ⟨Compares.le_trans xb ba, Compares.le_trans ab bx⟩⟩

variable [ComparesTotally α]

theorem lt_of_not_le (ha : a ≤ a) (hb : b ≤ b) (h : ¬b ≤ a) : a < b :=
  Compares.lt_iff.2 ⟨(ComparesTotally.le_total ha hb).resolve_right h, h⟩

theorem le_of_not_lt (ha : a ≤ a) (hb : b ≤ b) (h : ¬a < b) : b ≤ a := by
  by_contra above
  exact h (lt_of_not_le ha hb above)

end Scalar

namespace KnotVector

variable {α : Type} [Scalar α] {U : KnotVector α} {i : Nat} {u : α}

/-! ## §1. Knots in order. -/

/-- A knot is not above the next. -/
theorem knot_le_succ (h : U.isNonDecreasing = true) {m : Nat} (hm : m + 1 < U.size) :
    U.knot m ≤ U.knot (m + 1) := by
  have inside : m + 1 < U.values.length := hm
  have pair : (U.knot m, U.knot (m + 1)) ∈ Sequence.neighbours U.values := by
    refine List.mem_iff_getElem.2 ⟨m, by rw [Sequence.length_neighbours]; omega, ?_⟩
    simp [Sequence.neighbours, knot, inside, Nat.lt_of_succ_lt inside]
  exact of_decide_eq_true (List.all_eq_true.1 h _ pair)

/-- Knots that do not decrease from one to the next do not decrease at all. -/
theorem knot_le_of_isNonDecreasing [Scalar.Compares α] (h : U.isNonDecreasing = true)
    (two : 2 ≤ U.size) {i j : Nat} (le : i ≤ j) (hj : j < U.size) : U.knot i ≤ U.knot j := by
  induction j, le using Nat.le_induction with
  | base =>
      -- a knot compares with its neighbour, so it compares with itself
      rcases Nat.lt_or_ge (i + 1) U.size with lt | last
      · exact (Scalar.Compares.le_self (knot_le_succ h lt)).1
      · obtain ⟨i, rfl⟩ : ∃ k, i = k + 1 := ⟨i - 1, by omega⟩
        exact (Scalar.Compares.le_self (knot_le_succ h hj)).2
  | succ j _ ih => exact Scalar.Compares.le_trans (ih (by omega)) (knot_le_succ h hj)

/-- Knots in a row that equal a number are among its copies. -/
theorem le_count_of_beq {n : Nat} (inside : i + n ≤ U.size)
    (same : ∀ r < n, (U.knot (i + r) == u) = true) : n ≤ U.count u := by
  have length : ((U.values.drop i).take n).length = n := by
    rw [List.length_take, List.length_drop]
    exact Nat.min_eq_left (Nat.le_sub_of_add_le (Nat.add_comm i n ▸ inside))
  have all : ((U.values.drop i).take n).countP (· == u) = n := by
    refine (List.countP_eq_length.2 fun x hx => ?_).trans length
    obtain ⟨r, hr, rfl⟩ := List.mem_iff_getElem.1 hx
    have there := same r (length ▸ hr)
    have index : i + r < U.values.length :=
      Nat.lt_of_lt_of_le (Nat.add_lt_add_left (length ▸ hr) i) inside
    rw [knot, List.getD_eq_getElem _ _ index] at there
    rwa [List.getElem_take, List.getElem_drop]
  exact all ▸ ((List.take_sublist _ _).trans (List.drop_sublist _ _)).countP_le

end KnotVector

namespace Curve

open KnotVector

variable {α : Type} [Scalar α] {c : Curve α}

/-! ## §2. Arranged curves. -/

/-- The counts fit, the knots are in order, and the end spans are not empty, whatever the
numbers. -/
structure Arranged (c : Curve α) : Prop where
  /-- The degree is at least one. -/
  two_le_order : 2 ≤ c.order
  /-- There are control points enough for a span. -/
  order_le : c.order ≤ c.pointCount
  /-- The knot count fits. -/
  knotCount_eq : c.knots.size = c.pointCount + c.order - 2
  /-- The knots do not decrease. -/
  ordered : c.knots.isNonDecreasing = true
  /-- The first span is not empty. -/
  first_span : ¬c.knots.knot (c.order - 1) ≤ c.knots.knot (c.order - 2)
  /-- The last span is not empty. -/
  last_span : ¬c.knots.knot (c.pointCount - 1) ≤ c.knots.knot (c.pointCount - 2)

theorem arranged_of_isValid [Precision α] (h : c.isValid = true) : c.Arranged := by
  obtain ⟨counts, -, -, knots⟩ := defect?_eq_none_iff.1 (isValid_iff.1 h).2
  obtain ⟨-, order, points, count⟩ := of_countDefect?_eq_none counts
  unfold knotDefect? at knots
  dsimp only at knots
  split_ifs at knots with finite decreasing first last
  exact ⟨order, points, count, by simpa using decreasing, first, last⟩

namespace Arranged

variable (h : c.Arranged)

include h

/-- The counts, for arithmetic on the places of knots and control points. -/
theorem counts : 2 ≤ c.order ∧ c.order ≤ c.pointCount
    ∧ c.knots.size = c.pointCount + c.order - 2 ∧ c.degree = c.order - 1 :=
  ⟨h.two_le_order, h.order_le, h.knotCount_eq, rfl⟩

/-- The last knot of the domain, by its index. -/
theorem finish_eq : c.domain.2 = c.knots.knot (c.pointCount - 1) := by
  obtain ⟨two, enough, size, -⟩ := h.counts
  show c.knots.knot (c.knots.size + 1 - c.order) = _
  exact congrArg _ (by omega)

variable [Scalar.Compares α]

theorem knot_le {i j : Nat} (le : i ≤ j) (hj : j < c.knots.size) :
    c.knots.knot i ≤ c.knots.knot j := by
  obtain ⟨two, enough, size, degree⟩ := h.counts
  exact knot_le_of_isNonDecreasing h.ordered (by omega) le hj

/-- Every knot compares with itself. -/
theorem knot_self {i : Nat} (hi : i < c.knots.size) : c.knots.knot i ≤ c.knots.knot i :=
  h.knot_le (le_refl i) hi

/-- A later knot that is not up to a knot is above it. -/
theorem knot_lt {i j : Nat} (le : i ≤ j) (hj : j < c.knots.size)
    (apart : ¬c.knots.knot j ≤ c.knots.knot i) : c.knots.knot i < c.knots.knot j :=
  Scalar.Compares.lt_iff.2 ⟨h.knot_le le hj, apart⟩

/-- The padded knots are in order, but perhaps for the first and the last. -/
theorem knot_spline_le {i j : Nat} (pos : 0 < i) (le : i ≤ j) (hj : j ≤ c.knots.size) :
    c.spline.knots.knot i ≤ c.spline.knots.knot j := by
  obtain ⟨i, rfl⟩ : ∃ k, i = k + 1 := ⟨i - 1, by omega⟩
  obtain ⟨j, rfl⟩ : ∃ k, j = k + 1 := ⟨j - 1, by omega⟩
  have low := c.knots.knot_padded c.order (show i < c.knots.size by omega)
  have high := c.knots.knot_padded c.order (show j < c.knots.size by omega)
  exact high ▸ low ▸ h.knot_le (by omega) (by omega)

end Arranged

end Curve

end RationalSpline
