/-
  RationalSpline.Proofs.Sound
  ───────────────────────────
  THE SHAPE OF A CURVE.

  `Curve.Sound` is what the counts, the order of the knots and the sizes of the
  control vectors have to satisfy before any algorithm makes sense.  It leaves room
  for empty spans and over-full knots, which setting single knots can produce.
  `Curve.Regular` adds what the validity check adds: the first and the last span
  are not empty, no knot is repeated more often than the degree, weights are
  positive.
-/
import RationalSpline.Proofs.KnotOrder

namespace RationalSpline

variable {K : Type} [Field K] [LinearOrder K]

/-! ## §1. Groups of knots. -/

namespace KnotVector

variable [IsStrictOrderedRing K] [Precision K]

/-- A number within the spacing of the first member of a group is counted in the group. -/
theorem count_le_head_groupFrom {g : KnotMultiplicity K} {values : List K} {u : K}
    (ordered : (g.knot :: values).Pairwise (· ≤ ·))
    (near : |u - g.knot| ≤ Precision.epsilon) :
    ∃ m ∈ groupFrom g values, g.multiplicity + values.count u ≤ m.multiplicity := by
  induction values generalizing g with
  | nil => exact ⟨g, by simp [groupFrom], by simp⟩
  | cons k ks ih =>
      have hk : g.knot ≤ k := List.rel_of_pairwise_cons ordered List.mem_cons_self
      unfold groupFrom
      split
      · next far =>
          -- the rest lies above `k`, hence above `u`
          rw [Scalar.abs_eq, abs_of_nonneg (sub_nonneg.2 hk)] at far
          have below : u < k := by
            have := le_abs_self (u - g.knot)
            linarith
          have none : (k :: ks).count u = 0 := by
            refine List.count_eq_zero.2 fun member => ?_
            rcases List.mem_cons.1 member with rfl | member
            · exact lt_irrefl _ below
            · exact absurd (List.rel_of_pairwise_cons ordered.of_cons member)
                (not_le.2 below)
          exact ⟨g, List.mem_cons_self, by omega⟩
      · obtain ⟨m, hm, hle⟩ := ih (g := g.increment)
          (List.pairwise_cons.2 ⟨fun a ha => List.rel_of_pairwise_cons ordered
            (List.mem_cons_of_mem _ ha), ordered.of_cons.of_cons⟩) near
        refine ⟨m, hm, ?_⟩
        rw [KnotMultiplicity.multiplicity_increment] at hle
        have := List.count_le_length (a := u) (l := [k])
        rw [← List.singleton_append, List.count_append]
        simp only [List.length_singleton] at this
        omega

variable [Precision.Spaced K]

theorem count_le_groupFrom {g : KnotMultiplicity K} {values : List K} {u : K}
    (ordered : (g.knot :: values).Pairwise (· ≤ ·)) (member : u ∈ values) :
    ∃ m ∈ groupFrom g values, values.count u ≤ m.multiplicity := by
  induction values generalizing g with
  | nil => simp at member
  | cons k ks ih =>
      have eps : (0 : K) ≤ Precision.epsilon := Precision.Spaced.epsilon_nonneg
      -- either the group at hand takes all copies, or they come in the rest of the list
      by_cases near : |u - g.knot| ≤ Precision.epsilon
      · obtain ⟨m, hm, hle⟩ := count_le_head_groupFrom ordered near
        exact ⟨m, hm, by omega⟩
      · unfold groupFrom
        split
        · next far =>
            by_cases same : |u - k| ≤ Precision.epsilon
            · obtain ⟨m, hm, hle⟩ := count_le_head_groupFrom (g := ⟨k, 1⟩)
                ordered.of_cons same
              refine ⟨m, List.mem_cons_of_mem _ hm, ?_⟩
              have := List.count_le_length (a := u) (l := [k])
              rw [← List.singleton_append, List.count_append]
              simp only [List.length_singleton] at this hle
              omega
            · have other : u ≠ k := fun e => same (by simpa [e] using eps)
              obtain ⟨m, hm, hle⟩ := ih (g := ⟨k, 1⟩) ordered.of_cons
                ((List.mem_cons.1 member).resolve_left other)
              refine ⟨m, List.mem_cons_of_mem _ hm, ?_⟩
              rwa [List.count_cons_of_ne (Ne.symm other)]
        · next close =>
            have other : u ≠ k := by
              rintro rfl
              rw [Scalar.abs_eq] at close
              exact near (not_lt.1 close)
            obtain ⟨m, hm, hle⟩ := ih (g := g.increment)
              (List.pairwise_cons.2 ⟨fun a ha => List.rel_of_pairwise_cons ordered
                (List.mem_cons_of_mem _ ha), ordered.of_cons.of_cons⟩)
              ((List.mem_cons.1 member).resolve_left other)
            refine ⟨m, hm, ?_⟩
            rwa [List.count_cons_of_ne (Ne.symm other)]

/-- A bound on the groups bounds the repetitions of each knot. -/
theorem Ordered.count_le {U : KnotVector K} (h : U.Ordered) {bound : Nat}
    (groups : ∀ m ∈ U.multiplicities, m.multiplicity ≤ bound) (u : K) :
    U.count u ≤ bound := by
  obtain ⟨values⟩ := U
  rw [count_eq_list_count]
  cases values with
  | nil => simp
  | cons k ks =>
      by_cases same : u = k
      · subst same
        have eps : |u - u| ≤ (Precision.epsilon : K) := by
          simpa using Precision.Spaced.epsilon_nonneg
        obtain ⟨m, hm, hle⟩ := count_le_head_groupFrom (g := ⟨u, 1⟩) h eps
        have := groups m hm
        simp only [List.count_cons_self] at hle ⊢
        omega
      · by_cases member : u ∈ ks
        · obtain ⟨m, hm, hle⟩ := count_le_groupFrom (g := ⟨k, 1⟩) h member
          have := groups m hm
          show (k :: ks).count u ≤ bound
          rw [List.count_cons_of_ne (Ne.symm same)]
          omega
        · have none : (k :: ks).count u = 0 := List.count_eq_zero.2 (by simp [same, member])
          show (k :: ks).count u ≤ bound
          omega

end KnotVector

/-! ## §2. Sound and regular curves. -/

namespace Curve

/-- The counts fit, the knots are in order, and the vectors have one size. -/
structure Sound (c : Curve K) : Prop where
  /-- The degree is at least one. -/
  two_le_order : 2 ≤ c.order
  /-- There are control points enough for a span. -/
  order_le : c.order ≤ c.pointCount
  /-- The knot count fits. -/
  knotCount_eq : c.knotCount = c.pointCount + c.order - 2
  /-- The knots do not decrease. -/
  ordered : c.knots.Ordered
  /-- Every stored vector has its coordinates. -/
  sized : ∀ p ∈ c.points.vectors, p.length = c.vectorSize

/-- A sound curve with the further properties of a valid one. -/
structure Regular (c : Curve K) : Prop extends Sound c where
  /-- There is a dimension. -/
  dimension_pos : 1 ≤ c.dimension
  /-- The first span is not empty. -/
  first_span : c.knots.knot (c.order - 2) < c.knots.knot (c.order - 1)
  /-- The last span is not empty. -/
  last_span : c.knots.knot (c.pointCount - 2) < c.knots.knot (c.pointCount - 1)
  /-- No knot is repeated more often than the degree. -/
  count_le : ∀ u, c.knots.count u ≤ c.degree
  /-- Weights are positive. -/
  weight_pos : ∀ w ∈ c.points.weights, 0 < w

/-- The counts of a sound curve, for arithmetic on the places of knots and control points. -/
theorem Sound.counts {c : Curve K} (h : c.Sound) :
    2 ≤ c.order ∧ c.order ≤ c.pointCount ∧ c.knots.size = c.pointCount + c.order - 2
      ∧ c.degree = c.order - 1 :=
  ⟨h.two_le_order, h.order_le, h.knotCount_eq, rfl⟩

/-- The knots of the spline of a curve: one more on either side. -/
theorem values_spline (c : Curve K) : c.spline.knots.values
    = c.knots.superfluous c.order .start :: c.knots.values
        ++ [c.knots.superfluous c.order .finish] := rfl

theorem Sound.degree_pos {c : Curve K} (h : c.Sound) : 0 < c.degree := by
  obtain ⟨two, -, -, degree⟩ := h.counts
  omega

/-- The domain ends at the knot in the place of the last control point. -/
theorem Sound.domain_snd {c : Curve K} (h : c.Sound) :
    c.domain.2 = c.knots.knot (c.pointCount - 1) := by
  obtain ⟨two, enough, size, -⟩ := h.counts
  show c.knots.knot (c.knots.size + 1 - c.order) = _
  exact congrArg _ (by omega)

theorem isClamped_start_iff {c : Curve K} :
    c.isClamped .start = true ↔ c.knots.knot 0 = c.domain.1 := by
  show (c.knots.knot 0 == c.knots.knot (c.order - 2)) = true ↔ _
  exact beq_iff_eq

/-- A clamped start has no knots before it. -/
theorem Sound.countBelow_start {c : Curve K} (h : c.Sound) (clamped : c.isClamped .start = true) :
    c.knots.countBelow c.domain.1 = 0 := by
  obtain ⟨two, enough, size, -⟩ := h.counts
  by_contra pos
  have lt := (h.ordered.knot_lt_iff (i := 0) (u := c.domain.1) (by omega)).2 (by omega)
  exact absurd (isClamped_start_iff.1 clamped) lt.ne

/-- The knot that padding adds in front is not inside the domain. -/
theorem Sound.superfluous_le [IsStrictOrderedRing K] {c : Curve K} (h : c.Sound) :
    c.knots.superfluous c.order .start ≤ c.domain.1 := by
  obtain ⟨two, enough, size, -⟩ := h.counts
  exact (h.ordered.superfluous_start_le c.order).trans
    (h.ordered.knot_le (Nat.zero_le _) (by omega))

/-- Nor is the one that it adds behind. -/
theorem Sound.le_superfluous [IsStrictOrderedRing K] {c : Curve K} (h : c.Sound) :
    c.domain.2 ≤ c.knots.superfluous c.order .finish := by
  obtain ⟨two, enough, size, -⟩ := h.counts
  exact (h.ordered.knot_le (by omega) (by omega)).trans (h.ordered.le_superfluous_finish c.order)

theorem Regular.domain_lt {c : Curve K} (h : c.Regular) : c.domain.1 < c.domain.2 := by
  obtain ⟨two, enough, size, -⟩ := h.counts
  exact lt_of_lt_of_le h.first_span (h.ordered.knot_le (by omega) (by omega))

/-- One knot more than the degree in a row are not all equal. -/
theorem Regular.knot_lt {c : Curve K} (h : c.Regular) {i : Nat}
    (hi : i + c.degree < c.knots.size) : c.knots.knot i < c.knots.knot (i + c.degree) := by
  by_contra same
  have equal : ∀ r < c.degree + 1, c.knots.knot (i + r) = c.knots.knot i := by
    intro r hr
    have low := h.ordered.knot_le (i := i) (j := i + r) (by omega) (by omega)
    have high := h.ordered.knot_le (i := i + r) (j := i + c.degree) (by omega) (by omega)
    exact le_antisymm (high.trans (not_lt.1 same)) low
  have many := h.ordered.le_count (by omega) equal
  have := h.count_le (c.knots.knot i)
  omega

/-- As many knots as the degree lie up to the start of the domain. -/
theorem Regular.countUpTo_start {c : Curve K} (h : c.Regular) :
    c.knots.countUpTo c.domain.1 = c.degree := by
  obtain ⟨two, enough, size, degree⟩ := h.counts
  have reach := (h.ordered.knot_le_iff (i := c.order - 2) (u := c.domain.1) (by omega)).1
    (le_refl _)
  have beyond : ¬c.order - 1 < c.knots.countUpTo c.domain.1 := fun e =>
    absurd h.first_span (not_lt.2 ((h.ordered.knot_le_iff (by omega)).2 e))
  omega

/-- All but as many knots lie before its end. -/
theorem Regular.countBelow_finish {c : Curve K} (h : c.Regular) :
    c.knots.countBelow c.domain.2 = c.pointCount - 1 := by
  obtain ⟨two, enough, size, -⟩ := h.counts
  have reach := (h.ordered.knot_lt_iff (i := c.pointCount - 2) (u := c.domain.2) (by omega)).1
    (h.domain_snd ▸ h.last_span)
  have beyond : ¬c.pointCount - 1 < c.knots.countBelow c.domain.2 := fun e =>
    absurd h.domain_snd (ne_of_gt ((h.ordered.knot_lt_iff (by omega)).2 e))
  omega

theorem of_countDefect?_eq_none {α : Type} {c : Curve α} (h : c.countDefect? = none) :
    1 ≤ c.dimension ∧ 2 ≤ c.order ∧ c.order ≤ c.pointCount
      ∧ c.knotCount = c.pointCount + c.order - 2 := by
  unfold countDefect? at h
  dsimp only at h
  split_ifs at h with dimension order points count
  exact ⟨by omega, by omega, by omega, by omega⟩

/-- Vectors without a defect have their size. -/
theorem length_of_vectorDefect?_eq_none {α : Type} [Precision α] {size i : Nat}
    {vectors : List (Point α)}
    (h : vectorDefect? size i vectors = none) : ∀ p ∈ vectors, p.length = size := by
  induction vectors generalizing i with
  | nil => simp
  | cons p ps ih =>
      unfold vectorDefect? at h
      split_ifs at h with other
      exact List.forall_mem_cons.2 ⟨not_not.1 other, ih h⟩

section Validity

variable [Precision K]

/-- A curve without a defect, rule by rule. -/
theorem defect?_eq_none_iff {α : Type} [Scalar α] [Precision α] {c : Curve α} :
    c.defect? = none ↔ c.countDefect? = none
      ∧ vectorDefect? c.vectorSize 0 c.points.vectors = none
      ∧ (∀ w ∈ c.points.weights, Scalar.isWeight w = true) ∧ c.knotDefect? = none := by
  simp only [defect?, Option.orElse_eq_orElse, Option.orElse_eq_or, Option.or_eq_none_iff,
    Option.map_eq_none_iff, List.findIdx?_eq_none_iff]
  simp

section Exact

variable [Precision.Exact K]

/-- Where all numbers are finite, the sizes alone decide. -/
theorem vectorDefect?_eq_none_iff {size i : Nat} {vectors : List (Point K)} :
    vectorDefect? size i vectors = none ↔ ∀ p ∈ vectors, p.length = size := by
  refine ⟨length_of_vectorDefect?_eq_none, fun sized => ?_⟩
  induction vectors generalizing i with
  | nil => rfl
  | cons p ps ih =>
      obtain ⟨fits, rest⟩ := List.forall_mem_cons.1 sized
      have finite : p.all Precision.isFinite = true :=
        List.all_eq_true.2 fun a _ => Precision.Exact.isFinite a
      unfold vectorDefect?
      rw [if_neg (not_not.2 fits), finite]
      exact ih rest

/-- The validity check, rule by rule. -/
theorem isValid_iff_exact {c : Curve K} :
    c.isValid = true ↔ c.vectorSize < countLimit ∧ c.countDefect? = none
      ∧ (∀ p ∈ c.points.vectors, p.length = c.vectorSize) ∧ (∀ w ∈ c.points.weights, 0 < w)
      ∧ c.knotDefect? = none := by
  rw [isValid_iff, defect?_eq_none_iff, vectorDefect?_eq_none_iff]
  simp only [Scalar.isWeight_iff]

end Exact

variable [IsStrictOrderedRing K] [Precision.Spaced K]

/-- **What the validity check establishes**, however far the finite numbers reach. -/
theorem regular_of_isValid {c : Curve K} (h : c.isValid = true) : c.Regular := by
  obtain ⟨counts, vectors, weights, knots⟩ := defect?_eq_none_iff.1 (isValid_iff.1 h).2
  obtain ⟨dimension, order, points, count⟩ := of_countDefect?_eq_none counts
  unfold knotDefect? at knots
  dsimp only at knots
  split_ifs at knots with finite decreasing first last
  have ordered : c.knots.Ordered :=
    (KnotVector.isNonDecreasing_iff _).1 (by simpa using decreasing)
  simp only [Option.map_eq_none_iff, List.find?_eq_none, decide_eq_true_eq, not_lt] at knots
  exact
    { two_le_order := order
      order_le := points
      knotCount_eq := count
      ordered := ordered
      sized := length_of_vectorDefect?_eq_none vectors
      dimension_pos := dimension
      first_span := not_le.1 first
      last_span := not_le.1 last
      count_le := ordered.count_le knots
      weight_pos := fun w hw => Scalar.pos_of_isWeight (weights w hw) }

end Validity

end Curve

end RationalSpline
