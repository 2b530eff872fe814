/-
  RationalSpline.Proofs.Ellipse
  ─────────────────────────────
  THE ELLIPSE AS A RATIONAL CURVE.

  The frame of a plane is orthonormal, so plane coordinates are inner products.  A control
  point of the ellipse depends linearly on `(x·w, y·w, w)`, and so does everything that de
  Casteljau's algorithm makes of it: on each quarter turn the curve is the image of an arc
  that joins two orthogonal unit vectors.  With the weight `1 / √2` this arc lies on the unit
  circle.
-/
import RationalSpline.Proofs.Admission
import RationalSpline.Proofs.BezierForm
import RationalSpline.Proofs.SpaceVectors
import RationalSpline.Proofs.Validity
import RationalSpline.Primitive.Ellipse

namespace RationalSpline

/-! ## §1. Orthonormal frames. -/

namespace Plane

/-- The two directions of the plane are orthogonal unit vectors, the normal is their product. -/
structure Orthonormal (plane : Plane ℝ) : Prop where
  /-- The first direction is a unit vector. -/
  xAxis : plane.xAxis.norm = 1
  /-- So is the second. -/
  yAxis : plane.yAxis.norm = 1
  /-- They are orthogonal. -/
  orthogonal : plane.xAxis.dot plane.yAxis = 0
  /-- The normal completes them. -/
  normal : plane.normal = plane.xAxis.cross plane.yAxis

/-- **What is taken off the second direction leaves it orthogonal to the first.** -/
theorem orthonormal_of_ofDirections {origin x y : Vec3 ℝ} {plane : Plane ℝ}
    (ok : ofDirections origin x y = .ok plane) : plane.Orthonormal := by
  unfold ofDirections at ok
  split at ok
  · cases ok
  · next u first =>
      split at ok
      · cases ok
      · next v second =>
          obtain rfl := Except.ok.inj ok
          obtain ⟨long, rfl⟩ := Vec3.normalize?_eq_some.1 first
          obtain ⟨long', rfl⟩ := Vec3.normalize?_eq_some.1 second
          have eps : (0 : ℝ) ≤ Precision.epsilon := Precision.Exact.epsilon_nonneg
          have unit := Vec3.norm_normalize (eps.trans_lt long)
          have one := (Vec3.norm_eq_one_iff _).1 unit
          refine ⟨unit, Vec3.norm_normalize (eps.trans_lt long'), ?_, rfl⟩
          refine Vec3.dot_normalize_eq_zero ?_
          rw [Vec3.dot_sub, Vec3.dot_scale, one]
          ring

variable {plane : Plane ℝ} (h : plane.Orthonormal) (u v : ℝ)
include h

/-- Plane coordinates are inner products with the frame, and a point of the plane has none along
the normal. -/
theorem Orthonormal.coordinates :
    ((plane.pointAt u v).sub plane.origin).dot plane.xAxis = u
      ∧ ((plane.pointAt u v).sub plane.origin).dot plane.yAxis = v
      ∧ ((plane.pointAt u v).sub plane.origin).dot plane.normal = 0 := by
  have inPlane : (plane.pointAt u v).sub plane.origin
      = (plane.xAxis.scale u).add (plane.yAxis.scale v) := by
    simp only [pointAt, Vec3.add, Vec3.sub, Vec3.scale, Vec3.mk.injEq]
    exact ⟨by ring, by ring, by ring⟩
  have first := (Vec3.norm_eq_one_iff _).1 h.xAxis
  have second := (Vec3.norm_eq_one_iff _).1 h.yAxis
  simp only [inPlane, Vec3.add_dot, Vec3.scale_dot, first, second, h.orthogonal, h.normal,
    plane.yAxis.dot_comm plane.xAxis, Vec3.dot_cross_left, Vec3.dot_cross_right]
  exact ⟨by ring, by ring, by ring⟩

end Plane

/-! ## §2. Curves of Bézier spans. -/

namespace Curve

variable {K : Type} [Field K] [LinearOrder K] {c : Curve K} {boundaries : List K}
  {segments : Nat}

/-- **A curve of segments is regular.** -/
theorem Segmented.regular [IsStrictOrderedRing K] (h : Segmented c boundaries segments)
    (sound : c.Sound) (pos : 0 < segments) (dimension : 1 ≤ c.dimension)
    (positive : c.points.Positive) : c.Regular := by
  obtain ⟨two, enough, size, degree⟩ := sound.counts
  have count := h.count
  obtain ⟨-, -, start, start', lt⟩ := h.span sound pos
  obtain ⟨-, -, finish, finish', lt'⟩ := h.span sound (Nat.sub_lt pos one_pos)
  rw [show segments - 1 + 1 = segments by omega] at finish finish' lt'
  rw [zero_add, mul_one] at start start'
  have shift : ∀ i < c.knots.size, c.spline.knots.knot (i + 1) = c.knots.knot i := fun i hi =>
    c.knots.knot_padded c.order hi
  exact
    { toSound := sound
      dimension_pos := dimension
      first_span := by
        rw [← shift _ (by omega), ← shift _ (by omega), show c.order - 2 + 1 = c.degree by omega,
            ← degree, start, start']
        exact lt
      last_span := by
        rw [← shift _ (by omega), ← shift _ (by omega),
            show c.pointCount - 2 + 1 = c.degree * segments by omega,
            show c.pointCount - 1 + 1 = c.degree * segments + 1 by omega, finish, finish']
        exact lt'
      count_le := fun u => by
        have copies : c.knots.values = (boundaries.map fun b =>
            KnotMultiplicity.mk b c.degree).flatMap KnotMultiplicity.occurrences := by
          rw [List.flatMap_map]
          exact h.values
        rw [KnotVector.count_eq_list_count, copies]
        refine KnotVector.count_flatMap_le (List.pairwise_map.2 (h.increasing.imp ne_of_lt)) ?_ u
        simp
      weight_pos := ControlPoints.forall_weights_pos_iff.2 positive }

/-- Its knots are spread if its boundaries are. -/
theorem Segmented.spread [Precision K] (h : Segmented c boundaries segments) (sound : c.Sound)
    (apart : ∀ k < segments, Precision.epsilon < boundaries.getD (k + 1) 0 - boundaries.getD k 0) :
    c.Spread := by
  intro i hi
  obtain ⟨two, enough, size, degree⟩ := sound.counts
  have count := h.count
  have length := h.length
  have place := Nat.div_add_mod i c.degree
  have within := Nat.mod_lt i (show 0 < c.degree by omega)
  have inside : i / c.degree < segments := Nat.div_lt_of_lt_mul (by omega)
  have next : c.degree * (i / c.degree + 1) = c.degree * (i / c.degree) + c.degree :=
    Nat.mul_succ _ _
  have low := knot_segment sound h.values (j := i / c.degree) (by omega) within
  have high := knot_segment sound h.values (j := i / c.degree + 1) (by omega) within
  rw [place] at low
  rw [next, show c.degree * (i / c.degree) + c.degree + i % c.degree = i + c.degree by omega]
    at high
  rw [← c.knots.knot_padded c.order hi, ← c.knots.knot_padded c.order (i := i) (by omega)]
  show _ < c.spline.knots.knot (i + c.degree + 1) - c.spline.knots.knot (i + 1)
  rw [low, high]
  exact apart _ inside

end Curve

/-! ## §3. Arcs. -/

/-- A coordinate along the arc from `a` to `b` by way of the corner between them, which has the
weight `w`. -/
noncomputable def arc (w u a b : ℝ) : ℝ := mix u (mix u a ((a + b) * w)) (mix u ((a + b) * w) b)

/-- The weight along the arc. -/
noncomputable def arcWeight (w u : ℝ) : ℝ := mix u (mix u 1 w) (mix u w 1)

/-- **A quarter arc lies on the circle.**  Two orthogonal unit vectors are joined by way of the
corner between them, whose weight is half a diagonal. -/
theorem sq_add_sq_arc {x₀ y₀ x₂ y₂ w : ℝ} (start : x₀ ^ 2 + y₀ ^ 2 = 1)
    (finish : x₂ ^ 2 + y₂ ^ 2 = 1) (upright : x₀ * x₂ + y₀ * y₂ = 0) (half : w ^ 2 = 1 / 2)
    (u : ℝ) : arc w u x₀ x₂ ^ 2 + arc w u y₀ y₂ ^ 2 = arcWeight w u ^ 2 := by
  simp only [arc, arcWeight, mix, smul_eq_mul]
  linear_combination ((1 - u) ^ 2 + 2 * u * (1 - u) * w) ^ 2 * start
    + (u ^ 2 + 2 * u * (1 - u) * w) ^ 2 * finish
    + 2 * ((1 - u) ^ 2 + 2 * u * (1 - u) * w) * (u ^ 2 + 2 * u * (1 - u) * w) * upright
    + 4 * u ^ 2 * (1 - u) ^ 2 * half

theorem arcWeight_pos {w u : ℝ} (pos : 0 < w) (h₀ : 0 ≤ u) (h₁ : u ≤ 1) : 0 < arcWeight w u := by
  have inner : ∀ a b : ℝ, 0 < a → 0 < b → 0 < mix u a b := fun a b ha hb => by
    simp only [mix, smul_eq_mul]
    rcases h₀.eq_or_lt with rfl | lt
    · simpa using ha
    · have := mul_nonneg (sub_nonneg.2 h₁) ha.le
      have := mul_pos lt hb
      linarith
  exact inner _ _ (inner _ _ one_pos pos) (inner _ _ pos one_pos)

section Ends

variable (w a b : ℝ)

@[simp] theorem arc_zero : arc w 0 a b = a := by simp only [arc, mix_zero]

@[simp] theorem arc_one : arc w 1 a b = b := by simp only [arc, mix_one]

@[simp] theorem arcWeight_zero : arcWeight w 0 = 1 := by simp only [arcWeight, mix_zero]

@[simp] theorem arcWeight_one : arcWeight w 1 = 1 := by simp only [arcWeight, mix_one]

end Ends

namespace Ellipse

variable (e : Ellipse ℝ)

/-- The homogeneous point of the ellipse over a homogeneous point of the plane of the circle. -/
def lift (x y w : ℝ) : Point ℝ :=
  [e.plane.origin.x * w + e.plane.xAxis.x * (x * e.radiusX) + e.plane.yAxis.x * (y * e.radiusY),
    e.plane.origin.y * w + e.plane.xAxis.y * (x * e.radiusX) + e.plane.yAxis.y * (y * e.radiusY),
    e.plane.origin.z * w + e.plane.xAxis.z * (x * e.radiusX) + e.plane.yAxis.z * (y * e.radiusY),
    w]

theorem controlPoint_eq_lift (x y w : ℝ) : e.controlPoint x y w = e.lift (x * w) (y * w) w := by
  simp only [controlPoint, lift, Plane.pointAt, Vec3.add, Vec3.scale, List.cons.injEq, and_true]
  exact ⟨by ring, by ring, by ring⟩

theorem blend_lift (u x y w x' y' w' : ℝ) :
    Point.blend u (e.lift x y w) (e.lift x' y' w')
      = e.lift (mix u x x') (mix u y y') (mix u w w') := by
  simp only [Point.blend, Point.add, Point.scale, lift, mix, smul_eq_mul, List.map_cons,
    List.map_nil, List.zipWith_cons_cons, List.zipWith_nil_right, List.cons.injEq, and_true]
  exact ⟨by ring, by ring, by ring, by ring⟩

/-- **De Casteljau's algorithm runs on the circle as well as on the ellipse.** -/
theorem casteljau_lift (u x₀ y₀ x₂ y₂ w : ℝ) :
    casteljau u 2 [e.lift x₀ y₀ 1, e.lift ((x₀ + x₂) * w) ((y₀ + y₂) * w) w, e.lift x₂ y₂ 1]
      = e.lift (arc w u x₀ x₂) (arc w u y₀ y₂) (arcWeight w u) := by
  simp only [casteljau, casteljauRound, List.headD_cons, blend_lift, arc, arcWeight]

theorem dehomogenize_lift {w : ℝ} (nonzero : w ≠ 0) (x y : ℝ) :
    Point.dehomogenize (e.lift x y w)
      = (e.plane.pointAt (x / w * e.radiusX) (y / w * e.radiusY)).toPoint := by
  simp only [Point.dehomogenize, Point.divide, Point.weight, lift, Vec3.toPoint, Plane.pointAt,
    Vec3.add, Vec3.scale, List.dropLast_cons_cons, List.dropLast_singleton, List.map_cons,
    List.map_nil, List.getLastD_cons, List.getLastD_nil, List.cons.injEq, and_true]
  refine ⟨?_, ?_, ?_⟩ <;> field_simp

/-! ## §4. The curve of the ellipse. -/

/-- The angle after so many quarter turns. -/
noncomputable def quarterTurn (k : Nat) : ℝ := k * Analytic.halfPi

/-- The ellipse in parts, before the validity check. -/
noncomputable def arcs : Curve ℝ where
  dimension := 3
  order := 3
  points := .homogeneous (polygon.map fun (x, y, w) => e.controlPoint x y w)
  knots := ⟨quarterKnots⟩

theorem halfPi_pos : (0 : ℝ) < Analytic.halfPi := Real.pi_div_two_pos

theorem weight_sq : (Analytic.invSqrtTwo : ℝ) ^ 2 = 1 / 2 := by
  show (1 / Real.sqrt 2) ^ 2 = 1 / 2
  rw [div_pow, Real.sq_sqrt (by norm_num), one_pow]

theorem weight_pos : (0 : ℝ) < Analytic.invSqrtTwo := by
  show 0 < 1 / Real.sqrt 2
  positivity

theorem sound_arcs : e.arcs.Sound where
  two_le_order := by
    show 2 ≤ 3
    omega
  order_le := by
    show 3 ≤ 9
    omega
  knotCount_eq := rfl
  ordered := by
    have steps : ([0, 0, 1, 1, 2, 2, 3, 3, 4, 4] : List Nat).Pairwise (· ≤ ·) := by decide
    exact List.pairwise_map.2 (steps.imp fun le =>
      mul_le_mul_of_nonneg_right (Nat.cast_le.2 le) halfPi_pos.le)
  sized := by
    intro x hx
    obtain ⟨-, -, rfl⟩ := List.mem_map.1 hx
    rfl

/-- The four arcs meet at the quarter turns. -/
theorem segmented_arcs : Curve.Segmented e.arcs ((List.range 5).map quarterTurn) 4 where
  increasing := List.pairwise_map.2 (List.pairwise_lt_range.imp fun lt =>
    mul_lt_mul_of_pos_right (Nat.cast_lt.2 lt) halfPi_pos)
  length := rfl
  values := rfl
  count := rfl

theorem domain_arcs : e.arcs.domain = (0, 2 * Real.pi) := by
  refine Prod.ext ?_ ?_
  · show ((0 : Nat) : ℝ) * _ = 0
    rw [Nat.cast_zero, zero_mul]
  · show ((4 : Nat) : ℝ) * (Real.pi / 2) = _
    push_cast
    ring

theorem positive_arcs : e.arcs.points.Positive := by
  intro _ x hx
  obtain ⟨⟨x, y, w⟩, member, rfl⟩ := List.mem_map.1 hx
  have weight : Point.weight (e.controlPoint x y w) = w := rfl
  rw [weight]
  simp only [polygon, List.mem_cons, Prod.mk.injEq, List.not_mem_nil, or_false] at member
  have either : w = 1 ∨ w = Analytic.invSqrtTwo := by tauto
  rcases either with rfl | rfl
  · exact one_pos
  · exact weight_pos

theorem regular_arcs : e.arcs.Regular :=
  e.segmented_arcs.regular e.sound_arcs (by omega) (by show 1 ≤ 3; omega) e.positive_arcs

theorem getD_quarterTurn {k : Nat} (hk : k < 5) :
    ((List.range 5).map quarterTurn).getD k 0 = quarterTurn k := by
  rw [List.getD_eq_getElem _ _ (by simpa using hk), List.getElem_map, List.getElem_range]

theorem isValid_arcs : e.arcs.isValid = true := by
  refine e.regular_arcs.isValid (show 4 < countLimit by decide)
    (e.segmented_arcs.spread e.sound_arcs fun k hk => ?_)
  rw [getD_quarterTurn (by omega), getD_quarterTurn (by omega)]
  show (Precision.epsilon : ℝ) < ((k + 1 : Nat) : ℝ) * (Real.pi / 2) - k * (Real.pi / 2)
  push_cast
  linarith [Precision.epsilon_lt_half, Real.pi_gt_three]

/-- **The parts of an ellipse with positive radii are accepted.** -/
theorem toCurve_eq_ok (hx : 0 < e.radiusX) (hy : 0 < e.radiusY) : e.toCurve = .ok e.arcs := by
  have defect := (Curve.isValid_iff.1 e.isValid_arcs).2
  have room : e.arcs.pointCount + e.arcs.order < countLimit := show 9 + 3 < countLimit by decide
  have size : e.arcs.vectorSize < countLimit := show 4 < countLimit by decide
  have verdict : e.arcs.verdict? = some none := by
    rw [Curve.verdict?_eq (fun _ => room) fun _ => size, defect]
  rw [toCurve, if_pos (Bool.and_eq_true_iff.2
    ⟨(Scalar.isWeight_iff _).2 hx, (Scalar.isWeight_iff _).2 hy⟩)]
  show e.arcs.admitted = _
  rw [Curve.admitted, verdict]

/-! ## §5. Its values. -/

/-- The control points of a quarter turn, over two unit vectors and the corner between them. -/
noncomputable def arcPoints (k : Nat) : List (Point ℝ) :=
  let (x₀, y₀) := (Real.cos (quarterTurn k), Real.sin (quarterTurn k))
  let (x₂, y₂) := (Real.cos (quarterTurn (k + 1)), Real.sin (quarterTurn (k + 1)))
  let w := Analytic.invSqrtTwo
  [e.lift x₀ y₀ 1, e.lift ((x₀ + x₂) * w) ((y₀ + y₂) * w) w, e.lift x₂ y₂ 1]

/-- Cosine and sine of the quarter turns. -/
theorem circle_quarterTurn {k : Nat} (hk : k < 5) :
    (Real.cos (quarterTurn k), Real.sin (quarterTurn k))
      = [((1 : ℝ), (0 : ℝ)), (0, 1), (-1, 0), (0, -1), (1, 0)].getD k (0, 0) := by
  have halfPi : (Analytic.halfPi : ℝ) = Real.pi / 2 := rfl
  have two : (2 : ℝ) * (Real.pi / 2) = Real.pi := by ring
  have three : (3 : ℝ) * (Real.pi / 2) = Real.pi / 2 + Real.pi := by ring
  have four : (4 : ℝ) * (Real.pi / 2) = 2 * Real.pi := by ring
  rw [quarterTurn, halfPi]
  interval_cases k <;> simp [two, three, four, Real.cos_add_pi, Real.sin_add_pi]

/-- The polygon goes around by quarter turns. -/
theorem getD_arcs {k r : Nat} (hk : k < 4) (hr : r ≤ 2) :
    (e.arcPoints k).getD r [] = e.arcs.points.vectors.getD (2 * k + r) [] := by
  have start := circle_quarterTurn (show k < 5 by omega)
  have finish := circle_quarterTurn (show k + 1 < 5 by omega)
  have vectors : e.arcs.points.vectors = polygon.map fun (x, y, w) => e.controlPoint x y w := rfl
  rw [vectors]
  unfold arcPoints
  rw [start, finish]
  simp only [polygon, List.map_cons, List.map_nil, controlPoint_eq_lift]
  interval_cases k <;> interval_cases r <;> simp

/-- Every parameter lies in a quarter turn. -/
theorem exists_quarterTurn {t : ℝ} (h₀ : 0 ≤ t) (h₁ : t ≤ 2 * Real.pi) :
    ∃ k < 4, ∃ u : ℝ, 0 ≤ u ∧ u ≤ 1 ∧ t = mix u (quarterTurn k) (quarterTurn (k + 1)) := by
  have pos := halfPi_pos
  have halfPi : (Analytic.halfPi : ℝ) = Real.pi / 2 := rfl
  suffices found : ∃ k < 4, quarterTurn k ≤ t ∧ t ≤ quarterTurn (k + 1) by
    obtain ⟨k, hk, low, high⟩ := found
    have width : quarterTurn (k + 1) = quarterTurn k + Analytic.halfPi := by
      simp only [quarterTurn]
      push_cast
      ring
    refine ⟨k, hk, (t - quarterTurn k) / Analytic.halfPi, ?_, ?_, ?_⟩
    · exact div_nonneg (sub_nonneg.2 low) pos.le
    · rw [div_le_one pos]
      linarith
    · rw [width]
      simp only [mix, smul_eq_mul]
      field_simp
      ring
  have turns : ∀ k : Nat, quarterTurn k = k * (Real.pi / 2) := fun k => rfl
  simp only [turns]
  rcases le_total t (1 * (Real.pi / 2)) with first | later
  · exact ⟨0, by omega, by simpa using h₀, by simpa using first⟩
  rcases le_total t (2 * (Real.pi / 2)) with second | later'
  · exact ⟨1, by omega, by simpa using later, by simpa using second⟩
  rcases le_total t (3 * (Real.pi / 2)) with third | last
  · exact ⟨2, by omega, by simpa using later', by simpa using third⟩
  · refine ⟨3, by omega, by simpa using last, ?_⟩
    push_cast
    linarith

/-- **On each quarter turn the curve is the image of an arc.** -/
theorem definedVector_arcs {k : Nat} (hk : k < 4) {u : ℝ} (h₀ : 0 ≤ u) (h₁ : u ≤ 1) :
    e.arcs.definedVector (mix u (quarterTurn k) (quarterTurn (k + 1)))
      = e.lift
        (arc Analytic.invSqrtTwo u (Real.cos (quarterTurn k)) (Real.cos (quarterTurn (k + 1))))
        (arc Analytic.invSqrtTwo u (Real.sin (quarterTurn k)) (Real.sin (quarterTurn (k + 1))))
        (arcWeight Analytic.invSqrtTwo u) := by
  have count : (e.arcPoints k).length = e.arcs.degree + 1 := rfl
  have value := e.segmented_arcs.definedVector_eq e.regular_arcs hk count
    (fun r hr => e.getD_arcs hk hr) h₀ h₁
  rw [getD_quarterTurn (by omega), getD_quarterTurn (by omega)] at value
  exact value.trans (e.casteljau_lift u _ _ _ _ _)

/-- A point of the curve is the image of a point of the circle. -/
theorem exists_definedAt_arcs {t : ℝ} (h₀ : 0 ≤ t) (h₁ : t ≤ 2 * Real.pi) :
    ∃ x y, x ^ 2 + y ^ 2 = 1
      ∧ e.arcs.definedAt t = (e.plane.pointAt (x * e.radiusX) (y * e.radiusY)).toPoint := by
  obtain ⟨k, hk, u, above, below, rfl⟩ := exists_quarterTurn h₀ h₁
  have quarter : quarterTurn (k + 1) = quarterTurn k + Real.pi / 2 := by
    simp only [quarterTurn, show (Analytic.halfPi : ℝ) = Real.pi / 2 from rfl]
    push_cast
    ring
  have upright : Real.cos (quarterTurn k) * Real.cos (quarterTurn (k + 1))
      + Real.sin (quarterTurn k) * Real.sin (quarterTurn (k + 1)) = 0 := by
    rw [quarter, Real.cos_add_pi_div_two, Real.sin_add_pi_div_two]
    ring
  have circle := sq_add_sq_arc (Real.cos_sq_add_sin_sq (quarterTurn k))
    (Real.cos_sq_add_sin_sq (quarterTurn (k + 1))) upright weight_sq u
  have nonzero := (arcWeight_pos weight_pos above below).ne'
  have rational : e.arcs.isRational = true := rfl
  have point : e.arcs.definedAt _ = _ :=
    (if_pos rational).trans (congrArg Point.dehomogenize (e.definedVector_arcs hk above below))
  refine ⟨_, _, ?_, point.trans (e.dehomogenize_lift nonzero _ _)⟩
  rw [div_pow, div_pow, ← add_div, circle, div_self (pow_ne_zero 2 nonzero)]

/-- The first and the last quarter are wide enough for the span search. -/
theorem pointAt?_arcs {t : ℝ} (h₀ : 0 ≤ t) (h₁ : t ≤ 2 * Real.pi) :
    e.arcs.pointAt? t = some (e.arcs.definedAt t) := by
  have start : e.arcs.domain.1 = 0 := e.domain_arcs ▸ rfl
  have finish : e.arcs.domain.2 = 2 * Real.pi := e.domain_arcs ▸ rfl
  have resolves : e.arcs.Resolves t := by
    have last : e.arcs.knots.knot (e.arcs.pointCount - 2) = quarterTurn 3 := rfl
    have first : e.arcs.knots.knot (e.arcs.order - 1) = quarterTurn 1 := rfl
    have small := Precision.epsilon_lt_half
    have three := Real.pi_gt_three
    have halfPi : (Analytic.halfPi : ℝ) = Real.pi / 2 := rfl
    rw [Curve.Resolves, start, finish, last, first, quarterTurn, quarterTurn]
    push_cast
    split_ifs
    · linarith
    · intro
      linarith
  have value := e.regular_arcs.vectorAt_eq_definedVector (start ▸ h₀) (finish ▸ h₁) resolves
  rw [e.regular_arcs.pointAt?_eq, Curve.pointAt, Curve.definedAt, value]

/-- At the quarter turns the parameter is the angle. -/
theorem definedAt_quarterTurn {k : Nat} (hk : k ≤ 4) :
    e.arcs.definedAt (quarterTurn k) = (e.plane.pointAt (Real.cos (quarterTurn k) * e.radiusX)
      (Real.sin (quarterTurn k) * e.radiusY)).toPoint := by
  have rational : e.arcs.isRational = true := rfl
  have corner : ∀ x y, Point.dehomogenize (e.lift x y 1)
      = (e.plane.pointAt (x * e.radiusX) (y * e.radiusY)).toPoint := fun x y => by
    rw [e.dehomogenize_lift one_ne_zero, div_one, div_one]
  rw [Curve.definedAt, if_pos rational, ← corner]
  -- every angle but the last starts an arc
  rcases hk.lt_or_eq with lt | rfl
  · have value := e.definedVector_arcs lt le_rfl zero_le_one
    rw [mix_zero, arc_zero, arc_zero, arcWeight_zero] at value
    exact congrArg _ value
  · have value := e.definedVector_arcs (k := 3) (by omega) zero_le_one le_rfl
    rw [mix_one, arc_one, arc_one, arcWeight_one] at value
    exact congrArg _ value

/-- **The rational form of an ellipse is exact.**  For every plane that is accepted and all
positive radii there is a curve; it runs over the full turn, each of its points is found by the
evaluation and lies in the plane and on the ellipse, at every quarter turn the parameter is the
angle, and it ends where it starts. -/
theorem toCurve_exact {origin x y : Vec3 ℝ} {plane : Plane ℝ}
    (accepted : Plane.ofDirections origin x y = .ok plane) {rx ry : ℝ} (hx : 0 < rx)
    (hy : 0 < ry) :
    ∃ c, (Ellipse.mk plane rx ry).toCurve = .ok c ∧ c.domain = (0, 2 * Real.pi)
      ∧ (∀ t, 0 ≤ t → t ≤ 2 * Real.pi → ∃ p : Vec3 ℝ, c.definedAt t = p.toPoint
        ∧ c.pointAt? t = some p.toPoint
        ∧ ((p.sub plane.origin).dot plane.xAxis / rx) ^ 2
            + ((p.sub plane.origin).dot plane.yAxis / ry) ^ 2 = 1
        ∧ (p.sub plane.origin).dot plane.normal = 0)
      ∧ (∀ k : Nat, k ≤ 4 → c.definedAt (k * (Real.pi / 2))
        = (plane.pointAt (Real.cos (k * (Real.pi / 2)) * rx)
            (Real.sin (k * (Real.pi / 2)) * ry)).toPoint)
      ∧ c.definedAt 0 = c.definedAt (2 * Real.pi) := by
  have frame := Plane.orthonormal_of_ofDirections accepted
  set e : Ellipse ℝ := ⟨plane, rx, ry⟩ with he
  have quarters : ∀ k : Nat, k ≤ 4 → e.arcs.definedAt (k * (Real.pi / 2))
      = (plane.pointAt (Real.cos (k * (Real.pi / 2)) * rx)
          (Real.sin (k * (Real.pi / 2)) * ry)).toPoint := fun k hk => e.definedAt_quarterTurn hk
  refine ⟨e.arcs, e.toCurve_eq_ok hx hy, e.domain_arcs, fun t h₀ h₁ => ?_, quarters, ?_⟩
  · obtain ⟨u, v, circle, point⟩ := e.exists_definedAt_arcs h₀ h₁
    obtain ⟨first, second, third⟩ := frame.coordinates (u * rx) (v * ry)
    refine ⟨_, point, point ▸ e.pointAt?_arcs h₀ h₁, ?_, third⟩
    rw [first, second, mul_div_cancel_right₀ _ hx.ne', mul_div_cancel_right₀ _ hy.ne', circle]
  · have start := quarters 0 (by omega)
    have finish := quarters 4 le_rfl
    have turn : ((4 : Nat) : ℝ) * (Real.pi / 2) = 2 * Real.pi := by
      push_cast
      ring
    rw [turn, Real.cos_two_pi, Real.sin_two_pi] at finish
    rw [Nat.cast_zero, zero_mul, Real.cos_zero, Real.sin_zero] at start
    rw [start, finish]

/-- An upright plane, spanned by two directions that are neither orthogonal nor of length 1. -/
theorem toCurve_exact_upright :
    ∃ plane : Plane ℝ, Plane.ofDirections ⟨5, 0, 0⟩ ⟨0, 3, 0⟩ ⟨0, 1, 1⟩ = .ok plane
      ∧ (0 : ℝ) < 2 ∧ (0 : ℝ) < 1
      ∧ ∃ c, (Ellipse.mk plane 2 1).toCurve = .ok c ∧ c.domain = (0, 2 * Real.pi)
        ∧ c.definedAt 0 = c.definedAt (2 * Real.pi) := by
  have short : (Precision.epsilon : ℝ) < 1 := Precision.epsilon_lt_half.trans one_half_lt_one
  have three : Vec3.norm (⟨0, 3, 0⟩ : Vec3 ℝ) = 3 := by
    show Real.sqrt (0 * 0 + 3 * 3 + 0 * 0) = 3
    rw [show (0 * 0 + 3 * 3 + 0 * 0 : ℝ) = 3 ^ 2 by norm_num, Real.sqrt_sq (by norm_num)]
  have one : Vec3.norm (⟨0, 0, 1⟩ : Vec3 ℝ) = 1 := by rw [Vec3.norm_third, abs_one]
  have first : Vec3.normalize? (⟨0, 3, 0⟩ : Vec3 ℝ) = some ⟨0, 1, 0⟩ := by
    refine Vec3.normalize?_eq_some.2 ⟨by rw [three]; linarith, ?_⟩
    rw [Vec3.normalize, three]
    norm_num [Vec3.divide]
  have rest : (⟨0, 1, 1⟩ : Vec3 ℝ).sub ((⟨0, 1, 0⟩ : Vec3 ℝ).scale
      ((⟨0, 1, 0⟩ : Vec3 ℝ).dot ⟨0, 1, 1⟩)) = ⟨0, 0, 1⟩ := by
    norm_num [Vec3.sub, Vec3.scale, Vec3.dot]
  have second : Vec3.normalize? (⟨0, 0, 1⟩ : Vec3 ℝ) = some ⟨0, 0, 1⟩ := by
    exact Vec3.normalize?_eq_some.2 ⟨by rwa [one], Vec3.normalize_of_norm_eq_one one⟩
  have accepted : Plane.ofDirections (⟨5, 0, 0⟩ : Vec3 ℝ) ⟨0, 3, 0⟩ ⟨0, 1, 1⟩
      = .ok ⟨⟨5, 0, 0⟩, ⟨0, 1, 0⟩, ⟨0, 0, 1⟩, (⟨0, 1, 0⟩ : Vec3 ℝ).cross ⟨0, 0, 1⟩⟩ := by
    unfold Plane.ofDirections
    rw [first]
    simp only [rest, second]
  obtain ⟨c, curve, domain, -, -, closed⟩ := toCurve_exact accepted two_pos one_pos
  exact ⟨_, accepted, two_pos, one_pos, c, curve, domain, closed⟩

end Ellipse

end RationalSpline
