/-
  RationalSpline.Proofs.ControlPolygon
  ────────────────────────────────────
  OTHER CONTROL POINTS ON THE SAME KNOTS.

  Edits of locations and weights leave the knots alone.  They keep a curve sound
  because every vector they store has its coordinates, and they keep it regular when
  the weights they store are positive.
-/
import RationalSpline.Proofs.Coordinates
import RationalSpline.Proofs.Sound
import RationalSpline.Curve.Bezier
import RationalSpline.Curve.Reparameterization

namespace RationalSpline

variable {K : Type} [Field K] [LinearOrder K]

/-! ## §1. Weights. -/

namespace ControlPoints

/-- The weights are positive where there are any. -/
def Positive (P : ControlPoints K) : Prop :=
  P.isRational = true → ∀ x ∈ P.vectors, 0 < Point.weight x

theorem positive_cartesian (points : List (Point K)) : (cartesian points).Positive := fun h => by
  simp [isRational] at h

theorem positive_homogeneous {points : List (Point K)} :
    (homogeneous points).Positive ↔ ∀ x ∈ points, 0 < Point.weight x :=
  ⟨fun h => h rfl, fun h _ => h⟩

theorem positive_withVectors {P : ControlPoints K} {points : List (Point K)}
    (h : P.isRational = true → ∀ x ∈ points, 0 < Point.weight x) :
    (P.withVectors points).Positive := fun rational x hx => by
  rw [isRational_withVectors] at rational
  rw [vectors_withVectors] at hx
  exact h rational x hx

theorem Positive.set {P : ControlPoints K} (h : P.Positive) {i : Nat} {p : Point K}
    (weight : P.isRational = true → 0 < Point.weight p) : (P.set i p).Positive := by
  refine positive_withVectors fun rational x hx => ?_
  rcases List.mem_or_eq_of_mem_set hx with hx | rfl
  · exact h rational x hx
  · exact weight rational

variable [IsStrictOrderedRing K]

theorem Positive.weight_pos {P : ControlPoints K} (h : P.Positive)
    {i : Nat} (hi : i < P.length) : 0 < P.weight i := by
  cases rational : P.isRational with
  | false =>
      rw [weight_of_not_isRational rational]
      exact zero_lt_one
  | true =>
      rw [weight_of_isRational rational, List.getD_eq_getElem _ _ hi]
      exact h rational _ (List.getElem_mem hi)

theorem forall_weights_pos_iff {P : ControlPoints K} :
    (∀ w ∈ P.weights, 0 < w) ↔ P.Positive := by
  rw [forall_mem_weights]
  refine ⟨fun h rational x hx => ?_, fun h i => h.weight_pos⟩
  obtain ⟨i, hi, rfl⟩ := List.mem_iff_getElem.1 hx
  have weight := h i hi
  rwa [weight_of_isRational rational, List.getD_eq_getElem _ _ hi] at weight

theorem Positive.toRational {P : ControlPoints K} (h : P.Positive) :
    P.toRational.Positive := by
  cases P with
  | homogeneous => exact h
  | cartesian points =>
      refine positive_homogeneous.2 fun x hx => ?_
      obtain ⟨y, -, rfl⟩ := List.mem_map.1 hx
      rw [Point.weight, List.getLastD_concat]
      exact zero_lt_one

end ControlPoints

/-- The first weight and the last are positive. -/
theorem Curve.Sound.weight_ends_pos [IsStrictOrderedRing K] {c : Curve K} (h : c.Sound)
    (positive : c.points.Positive) :
    0 < c.points.weight 0 ∧ 0 < c.points.weight (c.pointCount - 1) := by
  obtain ⟨two, enough, -, -⟩ := h.counts
  exact ⟨positive.weight_pos (show 0 < c.pointCount by omega),
    positive.weight_pos (show c.pointCount - 1 < c.pointCount by omega)⟩

theorem Point.weight_scale (p : Point K) (a : K) :
    Point.weight (Point.scale p a) = Point.weight p * a := by
  rcases List.eq_nil_or_concat' p with rfl | ⟨init, last, rfl⟩
  · simp [weight, scale]
  · rw [weight, scale, List.map_append, List.map_singleton, List.getLastD_concat, weight,
        List.getLastD_concat]

/-! ## §2. The same curve with other control points. -/

namespace Curve

/-- `e` is `c` with other control points, as many as before. -/
structure Repointed {α : Type} (c e : Curve α) : Prop where
  /-- The number of coordinates stays. -/
  dimension : e.dimension = c.dimension
  /-- The order stays. -/
  order : e.order = c.order
  /-- The knots stay. -/
  knots : e.knots = c.knots
  /-- The number of control points stays. -/
  pointCount : e.pointCount = c.pointCount
  /-- Every stored vector has its coordinates. -/
  sized : ∀ x ∈ e.points.vectors, x.length = e.vectorSize

theorem Repointed.refl {α : Type} {c : Curve α}
    (sized : ∀ x ∈ c.points.vectors, x.length = c.vectorSize) : Repointed c c :=
  ⟨rfl, rfl, rfl, rfl, sized⟩

theorem Repointed.trans {α : Type} {b c e : Curve α} (h₁ : Repointed b c)
    (h₂ : Repointed c e) : Repointed b e :=
  ⟨h₂.dimension.trans h₁.dimension, h₂.order.trans h₁.order, h₂.knots.trans h₁.knots,
    h₂.pointCount.trans h₁.pointCount, h₂.sized⟩

/-- Vectors of the right size, as many as before, can take the places of all. -/
theorem repointed_withVectors {α : Type} {c : Curve α} {points : List (Point α)}
    (count : points.length = c.pointCount) (sized : ∀ x ∈ points, x.length = c.vectorSize) :
    Repointed c { c with points := c.points.withVectors points } := by
  refine ⟨rfl, rfl, rfl, (ControlPoints.length_withVectors _ _).trans count, ?_⟩
  simp only [vectorSize, isRational, ControlPoints.isRational_withVectors,
    ControlPoints.vectors_withVectors]
  exact sized

theorem repointed_store {α : Type} {c : Curve α}
    (sized : ∀ x ∈ c.points.vectors, x.length = c.vectorSize) (i : Nat)
    {p : Point α} (size : p.length = c.vectorSize) : Repointed c (c.store i p) := by
  refine repointed_withVectors (by simp [pointCount, ControlPoints.length]) fun x hx => ?_
  rcases List.mem_or_eq_of_mem_set hx with hx | rfl
  · exact sized x hx
  · exact size

variable {c e : Curve K}

namespace Repointed

theorem domain (h : Repointed c e) : e.domain = c.domain := by
  show e.knots.domain e.order = c.knots.domain c.order
  rw [h.knots, h.order]

theorem isClamped (h : Repointed c e) (side : CurveEnd) : e.isClamped side = c.isClamped side := by
  show e.knots.isClamped e.order side = c.knots.isClamped c.order side
  rw [h.knots, h.order]

theorem sound (h : Repointed c e) (hc : c.Sound) : e.Sound where
  two_le_order := h.order ▸ hc.two_le_order
  order_le := by
    rw [h.order, h.pointCount]
    exact hc.order_le
  knotCount_eq := by
    rw [knotCount, h.knots, h.order, h.pointCount]
    exact hc.knotCount_eq
  ordered := h.knots ▸ hc.ordered
  sized := h.sized

theorem regular [IsStrictOrderedRing K] (h : Repointed c e) (hc : c.Regular)
    (positive : e.points.Positive) : e.Regular where
  toSound := h.sound hc.toSound
  dimension_pos := h.dimension ▸ hc.dimension_pos
  first_span := by
    rw [h.knots, h.order]
    exact hc.first_span
  last_span := by
    rw [h.knots, h.pointCount]
    exact hc.last_span
  count_le := by
    intro u
    rw [h.knots, degree, h.order]
    exact hc.count_le u
  weight_pos := ControlPoints.forall_weights_pos_iff.2 positive

end Repointed

theorem Regular.positive [IsStrictOrderedRing K] (h : c.Regular) : c.points.Positive :=
  ControlPoints.forall_weights_pos_iff.1 h.weight_pos

theorem repointed_makeRational (sized : ∀ x ∈ c.points.vectors, x.length = c.vectorSize) :
    Repointed c c.makeRational := by
  refine ⟨rfl, rfl, rfl, pointCount_makeRational c, ?_⟩
  obtain ⟨dimension, order, points, knots⟩ := c
  cases points with
  | homogeneous => exact sized
  | cartesian points =>
      intro x hx
      obtain ⟨y, hy, rfl⟩ := List.mem_map.1 hx
      simpa [vectorSize, isRational, makeRational, ControlPoints.toRational,
        ControlPoints.isRational] using sized y hy

theorem vectorSize_makeRational (c : Curve K) : c.makeRational.vectorSize = c.dimension + 1 := by
  rw [vectorSize, isRational_makeRational]
  rfl

theorem domain_makeRational (c : Curve K) : c.makeRational.domain = c.domain := rfl

theorem Sound.makeRational (h : c.Sound) : c.makeRational.Sound :=
  (repointed_makeRational h.sized).sound h

theorem Regular.makeRational [IsStrictOrderedRing K] (h : c.Regular) : c.makeRational.Regular :=
  (repointed_makeRational h.sized).regular h h.positive.toRational

/-! ## §3. What the checks of arguments establish. -/

theorem checkIndex_eq_ok {α : Type} {i n : Nat} {r : Unit}
    (h : (checkIndex i n : Except (Failure α) Unit) = .ok r) : i < n := by
  unfold checkIndex at h
  split at h
  · next inside => exact inside
  · cases h

theorem checkSize_eq_ok {α : Type} {p : Point α} {n : Nat} {r : Unit}
    (h : checkSize p n = .ok r) : p.length = n := by
  unfold checkSize at h
  split at h
  · next size => exact size
  · cases h

theorem checkWeight_eq_ok [Precision K] [Precision.Exact K] {w : K} {r : Unit}
    (h : checkWeight w = .ok r) : 0 < w := by
  unfold checkWeight at h
  split at h
  · next weight => exact (Scalar.isWeight_iff w).1 weight
  · cases h

/-! ## §4. Locations and weights. -/

/-- Without weights a vector has a coordinate less. -/
theorem repointed_makeNonRational (sized : ∀ x ∈ c.points.vectors, x.length = c.vectorSize)
    (ok : c.makeNonRational = .ok e) :
    Repointed c e ∧ (c.points.Positive → e.points.Positive) := by
  obtain ⟨dimension, order, points, knots⟩ := c
  cases points with
  | cartesian points =>
      cases ok
      exact ⟨.refl sized, id⟩
  | homogeneous points =>
      unfold makeNonRational at ok
      dsimp only at ok
      split at ok
      · cases ok
      · cases ok
        refine ⟨⟨rfl, rfl, rfl, List.length_map _, fun x hx => ?_⟩,
          fun _ => ControlPoints.positive_cartesian _⟩
        obtain ⟨y, hy, rfl⟩ := List.mem_map.1 hx
        have size : y.length = dimension + 1 := sized y hy
        rw [Point.length_dehomogenize, size]
        rfl

variable [IsStrictOrderedRing K]

/-- A moved control point has its coordinates, and its weight stays. -/
theorem repointed_setLocation (sized : ∀ x ∈ c.points.vectors, x.length = c.vectorSize) {i : Nat}
    {p : Point K} (ok : c.setLocation i p = .ok e) :
    Repointed c e ∧ (c.points.Positive → e.points.Positive) := by
  obtain ⟨_, index, ok⟩ := bind_eq_ok ok
  obtain ⟨_, size, ok⟩ := bind_eq_ok ok
  cases ok
  have inside := checkIndex_eq_ok index
  have fits := checkSize_eq_ok size
  refine ⟨repointed_store sized i ?_, fun positive => positive.set fun rational => ?_⟩
  · rw [vectorSize]
    split <;> simp [fits]
  · have rational' : c.isRational = true := rational
    rw [if_pos rational', Point.weight_homogenize]
    exact positive.weight_pos inside

/-- The origin has its coordinates, and the weight 1. -/
theorem repointed_zeroPoints (c : Curve K) : Repointed c c.zeroPoints
    ∧ c.zeroPoints.points.Positive := by
  refine ⟨repointed_withVectors (List.length_map _) fun x hx => ?_,
    ControlPoints.positive_withVectors fun rational x hx => ?_⟩
  · obtain ⟨-, -, rfl⟩ := List.mem_map.1 hx
    rw [vectorSize]
    split <;> simp
  · obtain ⟨-, -, rfl⟩ := List.mem_map.1 hx
    have rational' : c.isRational = true := rational
    rw [if_pos rational', Point.weight, List.getLastD_concat]
    exact zero_lt_one

/-- A positive factor of all vectors keeps the weights positive. -/
theorem repointed_scaleVectors (sized : ∀ x ∈ c.points.vectors, x.length = c.vectorSize) (a : K) :
    Repointed c (c.scaleVectors a)
      ∧ (c.points.Positive → 0 < a → (c.scaleVectors a).points.Positive) := by
  refine ⟨repointed_withVectors (List.length_map _) fun x hx => ?_, fun positive pos =>
    ControlPoints.positive_withVectors fun rational x hx => ?_⟩
  · obtain ⟨y, hy, rfl⟩ := List.mem_map.1 hx
    rw [Point.length_scale, sized y hy]
  · obtain ⟨y, hy, rfl⟩ := List.mem_map.1 hx
    rw [Point.weight_scale]
    exact mul_pos (positive rational y hy) pos

variable [Precision K] [Precision.Exact K]

/-- A control point comes with a positive weight. -/
theorem repointed_setHomogeneous (sized : ∀ x ∈ c.points.vectors, x.length = c.vectorSize)
    {i : Nat} {p : Point K} (ok : c.setHomogeneous i p = .ok e) :
    Repointed c e ∧ (c.points.Positive → e.points.Positive) := by
  obtain ⟨_, -, ok⟩ := bind_eq_ok ok
  obtain ⟨_, size, ok⟩ := bind_eq_ok ok
  obtain ⟨_, weight, ok⟩ := bind_eq_ok ok
  have fits := checkSize_eq_ok size
  have pos := checkWeight_eq_ok weight
  split at ok
  · next rational =>
      cases ok
      refine ⟨repointed_store sized i ?_, fun positive => positive.set fun _ => pos⟩
      rw [fits, vectorSize, if_pos rational]
  · next cartesian =>
      split at ok
      · cases ok
        refine ⟨repointed_store sized i ?_, fun positive => positive.set fun rational =>
          absurd rational cartesian⟩
        rw [vectorSize, if_neg cartesian, List.length_take, fits]
        omega
      · cases ok
        have lifted := repointed_makeRational sized
        refine ⟨lifted.trans (repointed_store lifted.sized i ?_), fun positive =>
          positive.toRational.set fun _ => pos⟩
        rw [vectorSize_makeRational, fits]

/-- A weight that is set is positive. -/
theorem repointed_setWeight (sized : ∀ x ∈ c.points.vectors, x.length = c.vectorSize)
    {i : Nat} {w : K} (ok : c.setWeight i w = .ok e) :
    Repointed c e ∧ (c.points.Positive → e.points.Positive) := by
  obtain ⟨_, index, ok⟩ := bind_eq_ok ok
  obtain ⟨_, weight, ok⟩ := bind_eq_ok ok
  have inside := checkIndex_eq_ok index
  have pos := checkWeight_eq_ok weight
  split at ok
  · cases ok
    exact ⟨.refl sized, id⟩
  · cases ok
    have lifted := repointed_makeRational sized
    refine ⟨lifted.trans (repointed_store lifted.sized i ?_), fun positive =>
      positive.toRational.set fun _ => ?_⟩
    · have member : c.makeRational.points.vectors.getD i [] ∈ c.makeRational.points.vectors := by
        have inside' : i < c.makeRational.pointCount := by
          rw [pointCount_makeRational]
          exact inside
        rw [List.getD_eq_getElem _ _ inside']
        exact List.getElem_mem _
      have size := lifted.sized _ member
      rw [vectorSize_makeRational] at size ⊢
      rw [Point.length_homogenize, ControlPoints.location_of_isRational
        (isRational_makeRational c), Point.length_dehomogenize, size]
      omega
    · rw [Point.weight_homogenize]
      exact pos

end Curve

end RationalSpline
