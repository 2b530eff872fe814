/-
  RationalSpline.Proofs.EndWeights
  ────────────────────────────────
  END WEIGHTS.

  On a curve with full ends a linear fractional map leaves the first weight as it is and
  divides the last one by the power `factor ^ degree`, since the denominators at the ends
  are 1 and `factor`.  So the root of `(v₁ · w₀) / (v₀ · w₁)` as the factor gives the end
  weights `v₀` and `v₁` the ratio of `w₀` and `w₁`, and the common factor `w₀ / v₀` of all
  vectors makes them equal.  The image is that of the curve before, at the mapped
  parameters.
-/
import RationalSpline.Proofs.ClampedEnds
import RationalSpline.Proofs.Reparameterization
import RationalSpline.Proofs.Splicing
import RationalSpline.Proofs.UnitEnds

namespace RationalSpline.Curve

variable {K : Type} [Field K] [LinearOrder K] {c e : Curve K}

/-! ## §1. The factor 1. -/

theorem fractionalDenominator_one (u : K) : fractionalDenominator 1 u = 1 := by
  rw [fractionalDenominator, sub_self, zero_mul, zero_add]

theorem fractionalMap_one {domain : K × K} (lt : domain.1 < domain.2) (k : K) :
    fractionalMap 1 domain k = k := by
  have length : domain.2 - domain.1 ≠ 0 := sub_ne_zero.2 lt.ne'
  rw [fractionalMap, fractionalDenominator_one, one_mul, div_one, mul_div_cancel₀ _ length,
      add_sub_cancel]

theorem fractionalFactor_one (us : List K) : fractionalFactor 1 us = 1 := by
  have ones : (us.map (fractionalDenominator 1)).prod = 1 := List.prod_eq_one fun x hx => by
    obtain ⟨u, -, rfl⟩ := List.mem_map.1 hx
    exact fractionalDenominator_one u
  rw [fractionalFactor_eq, ones, div_one]

/-- The factor 1 changes nothing. -/
theorem applyFractional_one (lt : c.domain.1 < c.domain.2) : c.applyFractional 1 = c := by
  have knots : (c.applyFractional 1).knots = c.knots := by
    rw [knots_applyFractional 1 lt one_ne_zero]
    exact congrArg KnotVector.mk
      ((List.map_congr_left fun k _ => fractionalMap_one lt k).trans (List.map_id _))
  have vectors : (c.applyFractional 1).points.vectors = c.points.vectors := by
    show (ControlPoints.withVectors _ (List.mapIdx _ c.points.vectors)).vectors = _
    rw [ControlPoints.vectors_withVectors]
    refine List.ext_getElem List.length_mapIdx fun i h h' => ?_
    rw [List.getElem_mapIdx, fractionalFactor_one]
    simp [Point.scale]
  have points : (c.applyFractional 1).points = c.points :=
    ControlPoints.eq_of_vectors_eq (isRational_applyFractional 1) vectors
  exact Curve.mk.injEq .. ▸ ⟨rfl, rfl, points, knots⟩

/-! ## §2. Full ends. -/

/-- The outermost control points, under the map. -/
theorem Ended.weight_applyFractional (h : c.Ended) (rational : c.isRational = true) (factor : K) :
    (c.applyFractional factor).points.weight 0 = c.points.weight 0
      ∧ (c.applyFractional factor).points.weight (c.pointCount - 1)
        = c.points.weight (c.pointCount - 1) / factor ^ c.degree := by
  have length : c.domain.2 - c.domain.1 ≠ 0 := sub_ne_zero.2 h.lt.ne'
  have count := h.pointCount_eq
  have first : fractionalDivisor factor c.domain c.domain.1 = 1 := by
    simp [fractionalDivisor, fractionalDenominator]
  have last : fractionalDivisor factor c.domain c.domain.2 = factor := by
    simp [fractionalDivisor, fractionalDenominator, div_self length]
  have weight := ControlPoints.weight_of_isRational (P := c.points) rational
  have weight' := ControlPoints.weight_of_isRational (P := (c.applyFractional factor).points)
    ((isRational_applyFractional factor).trans rational)
  constructor
  · have knots : stretch c.spline.knots.knot (0 + 1) c.degree
        = Multiset.replicate c.degree c.domain.1 :=
      stretch_eq_replicate fun r hr => h.clamped.knot_start (by omega)
    rw [weight', h.toSound.getD_applyFractional factor (by omega), knots, Multiset.map_replicate,
        Multiset.prod_replicate, first, Point.weight_scale, ← weight, one_pow, div_one, mul_one]
  · have knots : stretch c.spline.knots.knot (c.pointCount - 1 + 1) c.degree
        = Multiset.replicate c.degree c.domain.2 := stretch_eq_replicate fun r hr => by
      rw [Nat.sub_add_cancel (by omega)]
      exact h.clamped.knot_finish (size_padded_knots h.toSound) hr.le
    rw [weight', h.toSound.getD_applyFractional factor (by omega), knots, Multiset.map_replicate,
        Multiset.prod_replicate, last, Point.weight_scale, ← weight, mul_one_div]

theorem weight_scaleVectors (rational : c.isRational = true) (a : K) {j : Nat}
    (hj : j < c.pointCount) : (c.scaleVectors a).points.weight j = c.points.weight j * a := by
  have rational' : (c.scaleVectors a).points.isRational = true :=
    (ControlPoints.isRational_withVectors _ _).trans rational
  rw [ControlPoints.weight_of_isRational rational', getD_scaleVectors a hj, Point.weight_scale,
      ControlPoints.weight_of_isRational rational]

/-- A clamped rational curve is reparameterized as it is. -/
theorem Sound.reparameterize_of_isClamped [Precision K] [Precision.Exact K] (h : c.Sound)
    (lt : c.domain.1 < c.domain.2) (start : c.isClamped .start = true)
    (finish : c.isClamped .finish = true) (rational : c.isRational = true) {factor : K}
    (pos : 0 < factor) : c.reparameterize factor = .ok (c.applyFractional factor) := by
  have same : c.makeRational = c := by
    rw [Curve.makeRational, ControlPoints.toRational_of_isRational rational]
  rw [Curve.reparameterize, if_pos ((Scalar.isWeight_iff factor).2 pos)]
  by_cases one : factor = 1
  · rw [if_pos (by simpa using one), one, applyFractional_one lt]
  · rw [if_neg (by simpa using one), h.clampEnds_of_isClamped start finish]
    exact congrArg (fun c => Except.ok (Curve.applyFractional c factor)) same

/-! ## §3. The end weights. -/

section EndWeights

variable [Analytic K]

theorem Rooted.of_degree_eq (rooted : c.Rooted) (degree : e.degree = c.degree) : e.Rooted := by
  unfold Rooted
  rw [degree]
  exact rooted

variable [IsStrictOrderedRing K] [Precision K] [Precision.Exact K]

/-- **Fitting the end weights of a clamped rational curve** reparameterizes it by the root of
their ratio and scales its vectors. -/
theorem Ended.fitEndWeights_eq (h : c.Ended) (start : c.isClamped .start = true)
    (finish : c.isClamped .finish = true) (rational : c.isRational = true)
    (positive : c.points.Positive) (rooted : c.Rooted) {w0 w1 : K} (pos0 : 0 < w0)
    (pos1 : 0 < w1) :
    ∃ factor, 0 < factor
      ∧ factor ^ c.degree
        = c.points.weight (c.pointCount - 1) * w0 / (c.points.weight 0 * w1)
      ∧ c.fitEndWeights w0 w1
        = ⟨(c.applyFractional factor).scaleVectors (w0 / c.points.weight 0), none⟩ := by
  obtain ⟨first, last⟩ := h.toSound.weight_ends_pos positive
  obtain ⟨factor, root⟩ := rooted _ (div_pos (mul_pos last pos0) (mul_pos first pos1))
  refine ⟨_, factor, root, ?_⟩
  unfold Curve.fitEndWeights
  dsimp only
  rw [h.toSound.reparameterize_of_isClamped h.lt start finish rational factor]

/-- **What the curve becomes.**  It has the end weights, and at the mapped parameters the
locations it had. -/
theorem Ended.fitEndWeights_spec (h : c.Ended) (start : c.isClamped .start = true)
    (finish : c.isClamped .finish = true) (rational : c.isRational = true)
    (positive : c.points.Positive) (rooted : c.Rooted) {w0 w1 : K} (pos0 : 0 < w0)
    (pos1 : 0 < w1) :
    ∃ e, c.fitEndWeights w0 w1 = ⟨e, none⟩ ∧ e.dimension = c.dimension ∧ e.order = c.order
      ∧ e.pointCount = c.pointCount ∧ e.domain = c.domain ∧ e.points.weight 0 = w0
      ∧ e.points.weight (c.pointCount - 1) = w1
      ∧ ∃ factor, 0 < factor ∧ ∀ t, c.domain.1 ≤ t → t ≤ c.domain.2 →
        e.definedAt (fractionalMap factor c.domain t) = c.definedAt t := by
  obtain ⟨factor, pos, root, fitted⟩ :=
    h.fitEndWeights_eq start finish rational positive rooted pos0 pos1
  have count := h.pointCount_eq
  obtain ⟨first, last⟩ := h.toSound.weight_ends_pos positive
  have rational' : (c.applyFractional factor).isRational = true :=
    (isRational_applyFractional factor).trans rational
  have points : (c.applyFractional factor).pointCount = c.pointCount :=
    pointCount_applyFractional factor
  have moved : (c.applyFractional factor).Sound := h.toSound.applyFractional h.within h.lt pos
  obtain ⟨weight0, weight1⟩ := h.weight_applyFractional rational factor
  have repointed := (repointed_scaleVectors moved.sized (w0 / c.points.weight 0)).1
  refine ⟨_, fitted, rfl, rfl, repointed.pointCount.trans points,
    domain_applyFractional h.toSound pos h.lt, ?_, ?_, factor, pos, fun t h₀ h₁ => ?_⟩
  · rw [weight_scaleVectors rational' _ (by omega), weight0, mul_div_cancel₀ _ first.ne']
  · have nonzero := pos0.ne'
    have nonzero' := pos1.ne'
    rw [weight_scaleVectors rational' _ (by omega), weight1, root]
    field_simp
  · rw [moved.definedAt_scaleVectors (div_pos pos0 first).ne' rational',
        h.toSound.definedAt_applyFractional h.within h.lt rational pos h₀ h₁]

/-- **Setting the end weights keeps the image.**  Positive end weights of a valid curve can
always be set, where powers are roots.  Then the outermost control points have them; dimension,
order, number of control points and domain stay; and at the parameters of a linear fractional
map of the domain onto itself the curve has the locations it had. -/
theorem changeEndWeights_keeps_image (valid : c.isValid = true) (rooted : c.Rooted) {w0 w1 : K}
    (pos0 : 0 < w0) (pos1 : 0 < w1) :
    ∃ e, c.changeEndWeights w0 w1 = ⟨e, none⟩ ∧ e.dimension = c.dimension ∧ e.order = c.order
      ∧ e.pointCount = c.pointCount ∧ e.domain = c.domain
      ∧ e.points.weight 0 = w0 ∧ e.points.weight (e.pointCount - 1) = w1
      ∧ ∃ factor, 0 < factor ∧ ∀ t u, c.domain.1 ≤ t → t ≤ c.domain.2 →
        u = (t - c.domain.1) / (c.domain.2 - c.domain.1) →
        e.definedAt (c.domain.1
            + (c.domain.2 - c.domain.1) * (factor * u / ((factor - 1) * u + 1)))
          = c.definedAt t := by
  have regular := regular_of_isValid valid
  have lt := regular.domain_lt
  have admissible : ∀ w : K, 0 < w → checkWeight w = .ok () := fun w pos =>
    if_pos ((Scalar.isWeight_iff w).2 pos)
  unfold Curve.changeEndWeights
  rw [admissible w0 pos0, admissible w1 pos1]
  dsimp only
  split
  · next plain =>
      -- a curve without weights has the weight 1 everywhere, and the map is the identity
      simp only [Bool.and_eq_true, Bool.not_eq_true', beq_iff_eq] at plain
      obtain ⟨⟨rational, rfl⟩, rfl⟩ := plain
      have weight := ControlPoints.weight_of_not_isRational (P := c.points) rational
      refine ⟨c, rfl, rfl, rfl, rfl, rfl, weight 0, weight _, 1, one_pos, ?_⟩
      rintro t u - - rfl
      exact congrArg c.definedAt (fractionalMap_one lt t)
  · obtain ⟨b, clamped, sound, keeps, start, finish, count, -⟩ := regular.clampEnds
    obtain ⟨b', clamped', ended, -⟩ := regular.toSound.ended_clampEnds lt regular.count_le
    cases clamped.symm.trans clamped'
    have lifted : b.makeRational.Ended := ended.repointed (repointed_makeRational sound.sized)
    have positive := (regular.regular_clampEnds clamped).makeRational.positive
    have points : b.makeRational.pointCount = c.pointCount :=
      (pointCount_makeRational b).trans count
    obtain ⟨e, fitted, dimension, order, total, domain, weight0, weight1, factor, pos, value⟩ :=
      lifted.fitEndWeights_spec start finish (isRational_makeRational b) positive
        (rooted.of_degree_eq keeps.degree) pos0 pos1
    have same : b.makeRational.domain = c.domain := keeps.domain
    rw [same] at domain value
    rw [clamped]
    refine ⟨e, fitted, dimension.trans keeps.dimension, order.trans keeps.order,
      total.trans points, domain, weight0, total ▸ weight1, factor, pos, ?_⟩
    rintro t u h₀ h₁ rfl
    have low : b.domain.1 ≤ t := same ▸ h₀
    have high : t ≤ b.domain.2 := same ▸ h₁
    calc e.definedAt (fractionalMap factor c.domain t)
        = b.makeRational.definedAt t := value t h₀ h₁
      _ = b.definedAt t := sound.definedAt_makeRational ended.lt low high
      _ = c.definedAt t := keeps.definedAt_eq regular.toSound sound lt h₀ h₁

end EndWeights

/-- The arch gets the end weights 2 and 3, and passes through its middle again. -/
theorem changeEndWeights_keeps_arch :
    arch.isValid = true ∧ arch.Rooted ∧ (0 : ℝ) < 2 ∧ (0 : ℝ) < 3
      ∧ ∃ e, arch.changeEndWeights 2 3 = ⟨e, none⟩ ∧ e.points.weight 0 = 2
        ∧ e.points.weight (e.pointCount - 1) = 3 ∧ ∃ t, e.definedAt t = arch.definedAt 2 := by
  have pos0 : (0 : ℝ) < 2 := by norm_num
  have pos1 : (0 : ℝ) < 3 := by norm_num
  obtain ⟨e, set, -, -, -, -, weight0, weight1, factor, -, value⟩ :=
    changeEndWeights_keeps_image isValid_arch rooted_arch pos0 pos1
  have start : arch.domain.1 = 1 := by norm_num [arch, openStart, Curve.map, domain,
    KnotVector.domain, KnotVector.map, KnotVector.knot]
  have finish : arch.domain.2 = 3 := by norm_num [arch, openStart, Curve.map, domain,
    KnotVector.domain, KnotVector.map, KnotVector.knot, KnotVector.size]
  refine ⟨isValid_arch, rooted_arch, pos0, pos1, e, set, weight0, weight1, _,
    value 2 _ ?_ ?_ rfl⟩
  · rw [start]
    norm_num
  · rw [finish]
    norm_num

end RationalSpline.Curve
