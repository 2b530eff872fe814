/-
  RationalSpline.Proofs.PolylineLength
  ────────────────────────────────────
  THE LENGTH OF A POLYLINE.

  A curve of degree 1 runs through its control points, one for each knot, and a valid one
  has its knots further apart than the spacing of the numbers.  So the search finds the
  span of every parameter that is not a knot, the speed on a span is the distance of its
  two control points over the distance of its knots, and a rule that integrates constants,
  with its nodes inside, gives the length of any part of the span exactly.

  The spans make up the domain, so the lengths between knots are sums of distances, and
  the lengths on either side of a parameter make up the whole.
-/
import RationalSpline.Proofs.Distances
import RationalSpline.Proofs.Evaluation
import RationalSpline.Proofs.SplitCurve
import RationalSpline.Proofs.Validity
import RationalSpline.Curve.Length

namespace RationalSpline

/-- Without weights the stored vectors are the locations. -/
theorem ControlPoints.locations_of_not_isRational {α : Type} [Scalar α] {P : ControlPoints α}
    (plain : P.isRational = false) : P.locations = P.vectors := by
  cases P with
  | cartesian points =>
      refine List.ext_getElem (by simp [vectors, length]) fun i h₁ h₂ => ?_
      have inside : i < points.length := h₂
      simp [locations, location, vectors, inside]
  | homogeneous points => simp [isRational] at plain

variable {K : Type} [Field K] [LinearOrder K]

/-! ## §1. Sums along a list. -/

namespace Sequence

variable {β : Type}

/-- A sum that runs through a list. -/
theorem foldl_add_map (f : β → K) (l : List β) :
    l.foldl (fun sum x => sum + f x) 0 = (l.map f).sum := by
  rw [← List.foldl_map, Point.foldl_add_eq, zero_add]

/-- A sum over neighbours, by their places. -/
theorem foldl_neighbours (f : β → β → K) (l : List β) (d : β) :
    (neighbours l).foldl (fun total (p, q) => total + f p q) 0
      = ∑ j ∈ Finset.range (l.length - 1), f (l.getD j d) (l.getD (j + 1) d) := by
  have entries : (neighbours l).map (fun p => f p.1 p.2)
      = (List.range (l.length - 1)).map fun j => f (l.getD j d) (l.getD (j + 1) d) := by
    refine List.ext_getElem (by simp) fun j h₁ h₂ => ?_
    have inside : j + 1 < l.length := by simp at h₂; omega
    simp [neighbours, List.getD_eq_getElem?_getD, inside, Nat.lt_of_succ_lt inside]
  have sum := foldl_add_map (fun p : β × β => f p.1 p.2) (neighbours l)
  rw [entries] at sum
  exact sum

end Sequence

/-! ## §2. Rules. -/

/-- A rule integrates constants exactly, with its nodes strictly inside the interval. -/
structure ExactOnConstants (rule : List (K × K)) : Prop where
  /-- The nodes lie inside. -/
  inside : ∀ x ∈ rule, -1 < x.1 ∧ x.1 < 1
  /-- The weights add up to the length of the interval. -/
  weights : (rule.map Prod.snd).sum = 2

/-- Numbers are summands and sums as they are. -/
class Quadrature.Exact (K : Type) [Quadrature K K] : Prop where
  /-- A number is a summand. -/
  widen : ∀ a : K, Quadrature.widen a = a
  /-- A sum is a number. -/
  narrow : ∀ a : K, Quadrature.narrow a = a

/-- A constant is integrated exactly, whatever the function is outside the interval. -/
theorem integrate_constant [IsStrictOrderedRing K] [Quadrature K K] [Quadrature.Exact K]
    {rule : List (K × K)} (constants : ExactOnConstants rule) {a b v : K} (lt : a < b) {f : K → K}
    (constant : ∀ t, a < t → t < b → f t = v) : integrate rule a b f = (b - a) * v := by
  have summand : ∀ x ∈ rule, Quadrature.widen (f (Quadrature.narrow
      (Scalar.half * ((b - a) * x.1 + (b + a))))) * x.2 = v * x.2 := by
    intro x hx
    obtain ⟨low, high⟩ := constants.inside x hx
    rw [Quadrature.Exact.widen, Quadrature.Exact.narrow, Scalar.half_eq, constant]
    · nlinarith
    · nlinarith
  have sum : rule.foldl (fun sum (x : K × K) => sum + Quadrature.widen (f (Quadrature.narrow
      (Scalar.half * ((b - a) * x.1 + (b + a))))) * x.2) 0 = v * 2 := by
    rw [Sequence.foldl_add_map, List.map_congr_left summand, List.sum_map_mul_left,
        constants.weights]
  show Scalar.half * (b - a) * rule.foldl _ 0 = _
  rw [sum, Scalar.half_eq]
  ring

/-! ## §3. Knots that are apart. -/

namespace KnotVector

variable [IsStrictOrderedRing K] [Precision K]

/-- Where no group has a second member, every number is further than the spacing from the next. -/
theorem isChain_of_groupFrom {g : KnotMultiplicity K} {values : List K} (some : 1 ≤ g.multiplicity)
    (single : ∀ m ∈ groupFrom g values, m.multiplicity ≤ 1) :
    (g.knot :: values).IsChain fun a b => Precision.epsilon < |b - a| := by
  induction values generalizing g with
  | nil => exact List.isChain_singleton _
  | cons k ks ih =>
      unfold groupFrom at single
      split at single
      · next far =>
          obtain ⟨-, rest⟩ := List.forall_mem_cons.1 single
          rw [Scalar.abs_eq] at far
          exact List.isChain_cons_cons.2 ⟨far, ih (g := ⟨k, 1⟩) le_rfl rest⟩
      · -- the number joins the group, which then has two members
        obtain ⟨m, hm, le⟩ : ∃ m ∈ groupFrom g.increment ks, g.increment.multiplicity + 0 ≤
            m.multiplicity :=
          exists_le_of_near (Nat.zero_le _) fun r hr => absurd hr (Nat.not_lt_zero r)
        have bound := single m hm
        rw [KnotMultiplicity.multiplicity_increment] at le
        omega

end KnotVector

namespace Curve

section Spans

variable [IsStrictOrderedRing K] [Precision K] {c : Curve K} {t : K} {j : Nat}

/-- The knots of a valid curve of degree 1 are further apart than the spacing of the numbers. -/
theorem Grouped.spread (h : c.Grouped) (sound : c.Sound) (linear : c.order = 2) : c.Spread := by
  intro j inside
  have degree : c.degree = 1 := by rw [Curve.degree, linear]
  rw [degree] at inside ⊢
  have chain : c.knots.values.IsChain fun a b => Precision.epsilon < |b - a| := by
    have groups : ∀ m ∈ c.knots.multiplicities, m.multiplicity ≤ 1 := degree ▸ h
    unfold KnotVector.multiplicities at groups
    split at groups
    · next empty => rw [empty]; exact List.isChain_nil
    · next k ks values =>
        rw [values]
        exact KnotVector.isChain_of_groupFrom (g := ⟨k, 1⟩) le_rfl groups
  have far := List.isChain_iff_getElem.1 chain j inside
  rw [← KnotVector.knot_eq_getElem _ inside,
      ← KnotVector.knot_eq_getElem _ (Nat.lt_of_succ_lt inside)] at far
  rwa [abs_of_nonneg (sub_nonneg.2 (sound.ordered.knot_le (Nat.le_succ j) inside))] at far

/-- A valid curve of degree 1 whose control points are locations. -/
structure IsPolyline (c : Curve K) : Prop extends Regular c where
  /-- The knots are further apart than the spacing of the numbers. -/
  spread : c.Spread
  /-- The degree is 1. -/
  linear : c.order = 2
  /-- There are no weights. -/
  plain : c.isRational = false

theorem isPolyline_of_isValid [Precision.Exact K] (valid : c.isValid = true) (linear : c.order = 2)
    (plain : c.isRational = false) : c.IsPolyline := by
  obtain ⟨-, regular, grouped⟩ := isValid_iff_regular.1 valid
  exact ⟨regular, grouped.spread regular.toSound linear, linear, plain⟩

namespace IsPolyline

variable (h : c.IsPolyline)

include h

omit [IsStrictOrderedRing K] in
/-- There is a knot for each control point. -/
theorem size_knots : c.knots.size = c.pointCount := by
  have count := h.knotCount_eq
  have linear := h.linear
  have size : c.knots.size = c.knotCount := rfl
  omega

omit [IsStrictOrderedRing K] in
/-- They are the domain from end to end. -/
theorem domain_eq : c.domain = (c.knots.knot 0, c.knots.knot (c.pointCount - 1)) := by
  have size := h.size_knots
  have linear := h.linear
  rw [Curve.domain, KnotVector.domain, linear, size,
      show c.pointCount + 1 - 2 = c.pointCount - 1 by omega]

omit [IsStrictOrderedRing K] in
/-- On padded knots they stand one place further. -/
theorem knot_padded (hj : j < c.pointCount) :
    c.spline.knots.knot (j + 1) = c.knots.knot j :=
  KnotVector.knot_padded _ _ (h.size_knots ▸ hj)

omit [IsStrictOrderedRing K] in
theorem epsilon_lt (hj : j + 1 < c.pointCount) :
    Precision.epsilon < c.knots.knot (j + 1) - c.knots.knot j := by
  have degree : c.degree = 1 := by rw [Curve.degree, h.linear]
  have far := h.spread j (by rw [degree, h.size_knots]; exact hj)
  rwa [degree] at far

theorem knot_lt_succ [Precision.Exact K] (hj : j + 1 < c.pointCount) :
    c.knots.knot j < c.knots.knot (j + 1) :=
  sub_pos.1 (lt_of_le_of_lt Precision.Exact.epsilon_nonneg (h.epsilon_lt hj))

variable [Precision.Exact K]

/-- The knots are in strict order. -/
theorem knot_lt {i : Nat} (lt : i < j) (hj : j < c.pointCount) :
    c.knots.knot i < c.knots.knot j :=
  lt_of_lt_of_le (h.knot_lt_succ (by omega)) (h.ordered.knot_le lt (h.size_knots ▸ hj))

end IsPolyline

end Spans

end Curve

/-! ## §4. The speed on a span. -/

/-- The basis functions of a span of degree 1 have opposite slopes. -/
theorem KnotVector.derivativeRow_one (U : KnotVector K) (i : Nat) (u : K) :
    U.derivativeRow i u 1 1
      = [-1 / (U.knot (i + 1) - U.knot i), 1 / (U.knot (i + 1) - U.knot i)] := by
  have support : U.support i u 1 0 = U.knot (i + 1) - U.knot i := by
    simp [KnotVector.support, above, below]
  simp [derivativeRow, reducedDerivative, shares, differences, nextDifference, basisRow,
    fallingFactorial, List.range_succ, support]

theorem Point.combine_pair {p q : Point K} {d : Nat} (hp : p.length = d) (hq : q.length = d)
    (w : K) : combine d [-1 / w, 1 / w] [p, q] = scale (sub q p) (1 / w) := by
  rw [← ofVec_coords hp, ← ofVec_coords hq, sub_ofVec, scale_ofVec]
  have sum := combine_ofVec [-1 / w, 1 / w] [coords d p, coords d q]
  refine sum.trans (congrArg ofVec ?_)
  simp only [List.zipWith_cons_cons, List.zipWith_nil_left, List.sum_cons, List.sum_nil, add_zero]
  rw [smul_sub, neg_div, neg_smul, neg_add_eq_sub]

namespace Curve

namespace IsPolyline

section Tangent

variable [IsStrictOrderedRing K] [Precision K] [Precision.Exact K] {c : Curve K} {t : K} {j : Nat}
  (h : c.IsPolyline)

include h

/-- **The search finds the span of every parameter that is not a knot.** -/
theorem spanAt_eq (hj : j + 1 < c.pointCount) (low : c.knots.knot j < t)
    (high : t < c.knots.knot (j + 1)) : c.spline.spanAt t = j + 1 := by
  have size := h.size_knots
  have degree : c.degree = 1 := by rw [Curve.degree, h.linear]
  obtain ⟨first, last, -, holds⟩ := h.toRegular.spanAt_spec t
  rw [h.domain_eq] at holds
  split_ifs at holds with late early
  · -- only the last span reaches so near to the end
    by_contra other
    have le := h.ordered.knot_le (show j + 1 ≤ c.pointCount - 2 by omega) (by omega)
    have far := h.epsilon_lt (j := c.pointCount - 2) (by omega)
    rw [show c.pointCount - 2 + 1 = c.pointCount - 1 by omega] at far
    linarith
  · -- only the first span reaches so near to the start
    by_contra other
    have le := h.ordered.knot_le (show 1 ≤ j by omega) (by omega)
    have far := h.epsilon_lt (j := 0) (by omega)
    rw [zero_add] at far
    linarith
  · obtain ⟨k, hk⟩ : ∃ k, c.spline.spanAt t = k + 1 := ⟨c.spline.spanAt t - 1, by omega⟩
    rw [hk] at last holds ⊢
    rw [h.knot_padded (by omega), h.knot_padded last] at holds
    have below := h.ordered.lt_of_knot_lt (j := j + 1) (by omega) (lt_of_le_of_lt holds.1 high)
    have above := h.ordered.lt_of_knot_lt (j := k + 1) (by omega) (lt_of_lt_of_le low holds.2)
    omega

/-- **The tangent on a span leads from its first control point to its second.** -/
theorem tangentAt_eq (hj : j + 1 < c.pointCount) (low : c.knots.knot j < t)
    (high : t < c.knots.knot (j + 1)) :
    c.tangentAt t = Point.scale
      (Point.sub (c.points.vectors.getD (j + 1) []) (c.points.vectors.getD j []))
      (1 / (c.knots.knot (j + 1) - c.knots.knot j)) := by
  have degree : c.degree = 1 := by rw [Curve.degree, h.linear]
  have points : c.points.vectors.length = c.pointCount := rfl
  have sized : ∀ i < c.pointCount, (c.points.vectors.getD i []).length = c.vectorSize := by
    intro i hi
    rw [List.getD_eq_getElem _ _ hi]
    exact h.sized _ (List.getElem_mem hi)
  have window : c.spline.window (j + 1)
      = [c.points.vectors.getD j [], c.points.vectors.getD (j + 1) []] := by
    rw [c.window_eq (by omega) hj, degree]
    rfl
  have span : c.tangentAt t = c.spline.derivative c.vectorSize (c.spline.spanAt t) t 1 := by
    rw [tangentAt, derivatives, h.plain]
    rfl
  have linear : c.spline.degree = 1 := degree
  rw [span, h.spanAt_eq hj low high, Spline.derivative, linear, if_pos le_rfl, window,
      KnotVector.derivativeRow_one, h.knot_padded hj, h.knot_padded (Nat.lt_of_succ_lt hj)]
  exact Point.combine_pair (sized j (by omega)) (sized (j + 1) hj) _

end Tangent

end IsPolyline

/-- The distance of a control point from the next. -/
noncomputable def chord (c : Curve ℝ) (j : Nat) : ℝ :=
  Point.distance (c.points.vectors.getD j []) (c.points.vectors.getD (j + 1) [])

/-- **The speed on a span is the distance of its control points over that of its knots.** -/
theorem IsPolyline.speedAt_eq [Precision ℝ] [Precision.Exact ℝ] {c : Curve ℝ} (h : c.IsPolyline)
    {t : ℝ} {j : Nat} (hj : j + 1 < c.pointCount) (low : c.knots.knot j < t)
    (high : t < c.knots.knot (j + 1)) :
    c.speedAt t = c.chord j / (c.knots.knot (j + 1) - c.knots.knot j) := by
  have width : 0 < c.knots.knot (j + 1) - c.knots.knot j := sub_pos.2 (h.knot_lt_succ hj)
  rw [speedAt, h.tangentAt_eq hj low high, Point.norm_scale, abs_of_pos (one_div_pos.2 width),
      mul_one_div]
  rfl

end Curve

/-! ## §5. Parts of an interval. -/

/-- The length of the part of an interval that lies in another one. -/
def overlap (lower upper a b : ℝ) : ℝ := max 0 (min upper b - max lower a)

theorem overlap_whole {lower upper a b : ℝ} (lt : lower < upper) (ha : a ≤ lower) (hb : upper ≤ b) :
    overlap lower upper a b = upper - lower := by
  rw [overlap, max_eq_left ha, min_eq_left hb, max_eq_right (sub_pos.2 lt).le]

/-- Any number splits an interval in two parts, one of which may be empty. -/
theorem overlap_add {lower upper a b : ℝ} (lt : lower < upper) (ha : a ≤ lower) (hb : upper ≤ b)
    (t : ℝ) : overlap lower upper a t + overlap lower upper t b = upper - lower := by
  rw [overlap, overlap, max_eq_left ha, min_eq_left hb]
  rcases le_total t lower with before | behind
  · rw [min_eq_right (before.trans lt.le), max_eq_left before, max_eq_left (sub_nonpos.2 before),
        max_eq_right (sub_pos.2 lt).le, zero_add]
  · rw [max_eq_right behind]
    rcases le_total t upper with inside | beyond
    · rw [min_eq_right inside, max_eq_right (sub_nonneg.2 behind),
          max_eq_right (sub_nonneg.2 inside), add_comm, sub_add_sub_cancel]
    · rw [min_eq_left beyond, max_eq_right (sub_pos.2 lt).le, max_eq_left (sub_nonpos.2 beyond),
          add_zero]

/-! ## §6. The length of a part. -/

namespace Curve

namespace IsPolyline

variable [Precision ℝ] [Precision.Exact ℝ] {c : Curve ℝ} {j : Nat} (h : c.IsPolyline)

include h

/-- **The length of a part of a span is its share of the distance.** -/
theorem spanLength_eq [Quadrature ℝ ℝ] [Quadrature.Exact ℝ] {rule : List (ℝ × ℝ)}
    (constants : ExactOnConstants rule) (a b : ℝ) (hj : j + 1 < c.pointCount) :
    c.spanLength rule a b (c.knots.knot j) (c.knots.knot (j + 1))
      = overlap (c.knots.knot j) (c.knots.knot (j + 1)) a b
        * (c.chord j / (c.knots.knot (j + 1) - c.knots.knot j)) := by
  rw [spanLength, overlap, Scalar.maxNum_eq, Scalar.minNum_eq, Quadrature.Exact.widen,
      Quadrature.Exact.widen]
  split
  · next empty => rw [max_eq_left (sub_nonpos.2 empty), zero_mul]
  · next some =>
      have lt := not_le.1 some
      rw [max_eq_right (sub_pos.2 lt).le, integrate_constant constants lt fun t low high =>
        h.speedAt_eq hj ((le_max_left _ _).trans_lt low) (high.trans_le (min_le_left _ _))]

/-- Every knot is a boundary. -/
theorem spanVector?_eq : c.spanVector? = some c.knots.values := by
  have size := h.size_knots
  have linear := h.linear
  have enough := h.order_le
  have all : c.knots.domainKnots c.order = c.knots.values := by
    rw [KnotVector.domainKnots, linear, List.drop_zero]
    exact List.take_of_length_le (by show c.knots.size ≤ _; omega)
  have increasing : c.knots.values.Pairwise (· < ·) :=
    List.pairwise_iff_getElem.2 fun i j hi hj lt => by
      have inside : j < c.pointCount := size ▸ hj
      rw [← c.knots.knot_eq_getElem hi, ← c.knots.knot_eq_getElem hj]
      exact h.knot_lt lt inside
  rw [Curve.spanVector?, KnotVector.spanVector?, if_pos ⟨decide_eq_true (by omega), by omega⟩]
  refine congrArg some (h.spanVector_eq_dedup.trans ?_)
  rw [all, List.dedup_eq_self.2 (increasing.imp fun lt => lt.ne)]

variable [Quadrature ℝ ℝ] [Quadrature.Exact ℝ]

/-- **The length between two parameters is the sum of the shares of all distances.** -/
theorem lengthBetween_eq (constants : ExactOnConstants (Quadrature.rule ℝ (16 + c.degree)))
    (a b : ℝ) :
    c.lengthBetween a b = .ok (∑ j ∈ Finset.range (c.pointCount - 1),
      overlap (c.knots.knot j) (c.knots.knot (j + 1)) a b
        * (c.chord j / (c.knots.knot (j + 1) - c.knots.knot j))) := by
  have size : c.knots.values.length = c.pointCount := h.size_knots
  have total := (Sequence.foldl_neighbours
    (fun x y => c.spanLength (Quadrature.rule ℝ (16 + c.degree)) a b x y) c.knots.values 0).trans
    (Finset.sum_congr rfl fun j hj => h.spanLength_eq constants a b
      (by have := Finset.mem_range.1 hj; omega))
  rw [size] at total
  rw [lengthBetween, h.spanVector?_eq]
  show (if Precision.isFinite (List.foldl _ _ _) = true then _ else _) = _
  rw [if_pos (Precision.Exact.isFinite _), Quadrature.Exact.narrow, ← total]

end IsPolyline

theorem polygonLength_eq (c : Curve ℝ) (plain : c.isRational = false) :
    c.polygonLength = ∑ j ∈ Finset.range (c.pointCount - 1), c.chord j := by
  rw [polygonLength, ControlPoints.locations_of_not_isRational plain]
  exact Sequence.foldl_neighbours Point.distance c.points.vectors []

variable [Precision ℝ] [Precision.Exact ℝ] [Quadrature ℝ ℝ] [Quadrature.Exact ℝ] {c : Curve ℝ}

/-- **The length of a polyline is that of its control polygon, and it is the sum of the lengths
before and behind any parameter.** -/
theorem polyline_length (valid : c.isValid = true) (linear : c.order = 2)
    (plain : c.isRational = false)
    (constants : ExactOnConstants (Quadrature.rule ℝ (16 + c.degree))) :
    c.length = .ok c.polygonLength
      ∧ ∀ b, ∃ before behind, c.lengthBetween c.domain.1 b = .ok before
        ∧ c.lengthBetween b c.domain.2 = .ok behind
        ∧ c.length = .ok (before + behind) := by
  have polyline := isPolyline_of_isValid valid linear plain
  have size := polyline.size_knots
  have domain := polyline.domain_eq
  have inside : ∀ j ∈ Finset.range (c.pointCount - 1), c.knots.knot j < c.knots.knot (j + 1)
      ∧ c.domain.1 ≤ c.knots.knot j ∧ c.knots.knot (j + 1) ≤ c.domain.2 := by
    intro j hj
    have := Finset.mem_range.1 hj
    rw [domain]
    exact ⟨polyline.knot_lt_succ (by omega), polyline.ordered.knot_le (Nat.zero_le _) (by omega),
      polyline.ordered.knot_le (by omega) (by omega)⟩
  have whole : c.length = .ok c.polygonLength := by
    rw [Curve.length, polyline.lengthBetween_eq constants, c.polygonLength_eq plain]
    refine congrArg Except.ok (Finset.sum_congr rfl fun j hj => ?_)
    obtain ⟨lt, low, high⟩ := inside j hj
    rw [overlap_whole lt low high, mul_div_cancel₀ _ (sub_pos.2 lt).ne']
  refine ⟨whole, fun b => ⟨_, _, polyline.lengthBetween_eq constants _ _,
    polyline.lengthBetween_eq constants _ _, ?_⟩⟩
  rw [whole, c.polygonLength_eq plain, ← Finset.sum_add_distrib]
  refine congrArg Except.ok (Finset.sum_congr rfl fun j hj => ?_)
  obtain ⟨lt, low, high⟩ := inside j hj
  rw [← add_mul, overlap_add lt low high, mul_div_cancel₀ _ (sub_pos.2 lt).ne']

end Curve

/-! ## §7. A rule, and a polyline. -/

/-- The midpoint rule on as many equal parts as there are nodes. -/
noncomputable instance : Quadrature ℝ ℝ where
  widen := id
  narrow := id
  rule m := (List.range m).map fun i => (((2 * i + 1 : Nat) : ℝ) / m - 1, ((2 : Nat) : ℝ) / m)

instance : Quadrature.Exact ℝ := ⟨fun _ => rfl, fun _ => rfl⟩

/-- It integrates constants. -/
theorem exactOnConstants_midpoints {m : Nat} (pos : 0 < m) :
    ExactOnConstants (Quadrature.rule ℝ m) where
  inside x hx := by
    obtain ⟨i, hi, rfl⟩ := List.mem_map.1 hx
    have parts : (0 : ℝ) < m := Nat.cast_pos.2 pos
    have before : ((i : ℝ) + 1) ≤ m := by exact_mod_cast List.mem_range.1 hi
    have node : (0 : ℝ) < ((2 * i + 1 : Nat) : ℝ) / m ∧ ((2 * i + 1 : Nat) : ℝ) / m < 2 := by
      push_cast
      exact ⟨by positivity, (div_lt_iff₀ parts).2 (by linarith)⟩
    exact ⟨by linarith [node.1], by linarith [node.2]⟩
  weights := by
    have parts : (m : ℝ) ≠ 0 := Nat.cast_ne_zero.2 pos.ne'
    have weights : (Quadrature.rule ℝ m).map Prod.snd
        = List.replicate m (((2 : Nat) : ℝ) / m) := by
      refine List.eq_replicate_iff.2 ⟨by simp [Quadrature.rule], fun w hw => ?_⟩
      simp only [Quadrature.rule, List.map_map, List.mem_map] at hw
      obtain ⟨i, -, rfl⟩ := hw
      rfl
    rw [weights, List.sum_replicate, nsmul_eq_mul, mul_div_cancel₀ _ parts, Nat.cast_ofNat]

namespace Curve

/-- Three points of the plane, on knots that are not evenly spaced. -/
noncomputable def elbow : Curve ℝ where
  dimension := 2
  order := 2
  points := .cartesian [[0, 0], [3, 4], [3, 5]]
  knots := ⟨[0, 1, 4]⟩

theorem isValid_elbow : elbow.isValid = true := by
  have epsilon : (Precision.epsilon : ℝ) = 1 / 4503599627370496 := rfl
  refine isValid_iff_exact.2 ⟨by decide, by decide, by decide, ?_, ?_⟩
  · exact ControlPoints.forall_weights_pos_iff.2 (ControlPoints.positive_cartesian _)
  · norm_num [knotDefect?, elbow, KnotVector.knot, KnotVector.isNonDecreasing,
      Sequence.neighbours, KnotVector.multiplicities, KnotVector.groupFrom,
      KnotMultiplicity.increment, Scalar.abs_eq, epsilon, Precision.Exact.isFinite, pointCount,
      ControlPoints.length, ControlPoints.vectors, Curve.degree]

/-- Its two parts have the lengths 5 and 1. -/
theorem polyline_length_elbow :
    elbow.isValid = true ∧ elbow.order = 2 ∧ elbow.isRational = false
      ∧ ExactOnConstants (Quadrature.rule ℝ (16 + elbow.degree))
      ∧ elbow.length = .ok 6
      ∧ ∃ before behind, elbow.lengthBetween elbow.domain.1 1 = .ok before
        ∧ elbow.lengthBetween 1 elbow.domain.2 = .ok behind
        ∧ elbow.length = .ok (before + behind) := by
  have constants := exactOnConstants_midpoints (show 0 < 16 + elbow.degree by decide)
  obtain ⟨whole, parts⟩ := polyline_length isValid_elbow rfl rfl constants
  have polygon : elbow.polygonLength = 6 := by
    have first : Point.distance ([0, 0] : Point ℝ) [3, 4] = 5 := by
      rw [Point.distance, Point.norm_eq, Real.sqrt_eq_iff_mul_self_eq] <;> norm_num [Point.sub]
    have second : Point.distance ([3, 4] : Point ℝ) [3, 5] = 1 := by
      rw [Point.distance, Point.norm_eq, Real.sqrt_eq_iff_mul_self_eq] <;> norm_num [Point.sub]
    rw [elbow.polygonLength_eq rfl]
    show ∑ j ∈ Finset.range 2, _ = _
    rw [Finset.sum_range_succ, Finset.sum_range_one]
    show Point.distance [0, 0] [3, 4] + Point.distance [3, 4] [3, 5] = (6 : ℝ)
    rw [first, second]
    norm_num
  exact ⟨isValid_elbow, rfl, rfl, constants, polygon ▸ whole, parts 1⟩

end Curve

end RationalSpline