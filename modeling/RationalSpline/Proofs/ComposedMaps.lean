/-
  RationalSpline.Proofs.ComposedMaps
  ──────────────────────────────────
  ONE LINEAR FRACTIONAL MAP AFTER ANOTHER.

  The maps of one domain compose as their factors multiply.  The denominators do the
  same, the second one taken where the first map leads:

      D (f·g) u  =  D f u · D g (φ f u)

  A control vector is divided by the denominators at its knots, and the second map finds
  the knots where the first one has moved them.  So the two products join factor by factor
  of the same knots, and nothing depends on the degree or on how often a knot is repeated.
-/
import RationalSpline.Proofs.EndWeights

namespace RationalSpline

variable {K : Type} [Field K] [LinearOrder K]

namespace Curve

variable {c : Curve K}

/-! ## §1. Maps and denominators. -/

/-- Where the first denominator is not zero, the two join. -/
theorem fractionalDenominator_mul {f : K} (g : K) {u : K}
    (nonzero : fractionalDenominator f u ≠ 0) :
    fractionalDenominator f u * fractionalDenominator g (f * u / fractionalDenominator f u)
      = fractionalDenominator (f * g) u := by
  rw [fractionalDenominator.eq_1 g, mul_add, mul_one, mul_left_comm, mul_div_cancel₀ _ nonzero]
  unfold fractionalDenominator
  ring

section Domain

variable {domain : K × K} {f k : K}

/-- The place of a mapped parameter in the domain. -/
theorem fractionalMap_place (lt : domain.1 < domain.2) (f k : K) :
    (fractionalMap f domain k - domain.1) / (domain.2 - domain.1)
      = f * ((k - domain.1) / (domain.2 - domain.1)) / fractionalDivisor f domain k := by
  have length : domain.2 - domain.1 ≠ 0 := sub_ne_zero.2 lt.ne'
  rw [fractionalMap, add_sub_cancel_left, mul_div_cancel_left₀ _ length]
  rfl

theorem fractionalDivisor_mul (lt : domain.1 < domain.2) (g : K)
    (nonzero : fractionalDivisor f domain k ≠ 0) :
    fractionalDivisor f domain k * fractionalDivisor g domain (fractionalMap f domain k)
      = fractionalDivisor (f * g) domain k := by
  rw [fractionalDivisor.eq_1 g, fractionalMap_place lt]
  exact fractionalDenominator_mul g nonzero

/-- **The factors of two maps multiply.** -/
theorem fractionalMap_fractionalMap (lt : domain.1 < domain.2) (g : K)
    (nonzero : fractionalDivisor f domain k ≠ 0) :
    fractionalMap g domain (fractionalMap f domain k) = fractionalMap (f * g) domain k := by
  have joined := fractionalDivisor_mul lt g nonzero
  have place := fractionalMap_place lt f k
  have inner : g * (f * ((k - domain.1) / (domain.2 - domain.1)) / fractionalDivisor f domain k)
        / fractionalDivisor g domain (fractionalMap f domain k)
      = f * g * ((k - domain.1) / (domain.2 - domain.1)) / fractionalDivisor (f * g) domain k := by
    rw [← joined, mul_div_assoc', div_div, mul_left_comm, ← mul_assoc]
  calc fractionalMap g domain (fractionalMap f domain k)
      = domain.1 + (domain.2 - domain.1)
          * (g * ((fractionalMap f domain k - domain.1) / (domain.2 - domain.1))
            / fractionalDivisor g domain (fractionalMap f domain k)) := rfl
    _ = domain.1 + (domain.2 - domain.1)
          * (f * g * ((k - domain.1) / (domain.2 - domain.1))
            / fractionalDivisor (f * g) domain k) := by rw [place, inner]
    _ = fractionalMap (f * g) domain k := rfl

end Domain

/-! ## §2. Knots and control vectors. -/

variable {f g : K}

/-- Clamped ends stay clamped. -/
theorem Sound.isClamped_applyFractional (h : c.Sound) (lt : c.domain.1 < c.domain.2)
    (pos : 0 < f) {side : CurveEnd} (clamped : c.isClamped side = true) :
    (c.applyFractional f).isClamped side = true :=
  ((repointed_applyFractional h pos lt).isClamped side).trans (h.isClamped_mapKnots _ clamped)

/-- The knots of a control vector are moved with the others. -/
theorem Sound.stretch_applyFractional (h : c.Sound) (lt : c.domain.1 < c.domain.2)
    (nonzero : f ≠ 0) {j : Nat} (hj : j < c.pointCount) :
    stretch (c.applyFractional f).spline.knots.knot (j + 1) c.degree
      = (stretch c.spline.knots.knot (j + 1) c.degree).map (fractionalMap f c.domain) := by
  obtain ⟨two, enough, size, degree⟩ := h.counts
  rw [stretch_map]
  exact stretch_congr fun r hr => knot_applyFractional nonzero lt (by omega) (by omega)

variable [IsStrictOrderedRing K]

/-- The denominators of both maps at the knots of a control vector. -/
theorem Sound.prod_fractionalDivisor (h : c.Sound) (within : c.Within)
    (lt : c.domain.1 < c.domain.2) (pos : 0 < f) {j : Nat} (hj : j < c.pointCount) :
    ((stretch c.spline.knots.knot (j + 1) c.degree).map (fractionalDivisor f c.domain)).prod
        * ((stretch (c.applyFractional f).spline.knots.knot (j + 1) c.degree).map
          (fractionalDivisor g c.domain)).prod
      = ((stretch c.spline.knots.knot (j + 1) c.degree).map
          (fractionalDivisor (f * g) c.domain)).prod := by
  obtain ⟨two, enough, size, degree⟩ := h.counts
  rw [h.stretch_applyFractional lt pos.ne' hj, Multiset.map_map, ← Multiset.prod_map_mul]
  refine congrArg Multiset.prod (Multiset.map_congr rfl fun k hk => ?_)
  obtain ⟨r, hr, rfl⟩ := exists_of_mem_stretch hk
  obtain ⟨low, high⟩ := within.knot_padded (i := j + 1 + r) (by omega) (by omega)
  exact fractionalDivisor_mul lt g (fractionalDivisor_pos pos lt low high).ne'

/-- **Two maps of a curve with all knots in its domain are one.** -/
theorem Sound.applyFractional_applyFractional (h : c.Sound) (within : c.Within)
    (lt : c.domain.1 < c.domain.2) (posf : 0 < f) (posg : 0 < g) :
    (c.applyFractional f).applyFractional g = c.applyFractional (f * g) := by
  have domain : (c.applyFractional f).domain = c.domain := domain_applyFractional h posf lt
  have moved : (c.applyFractional f).Sound := h.applyFractional within lt posf
  have lt' : (c.applyFractional f).domain.1 < (c.applyFractional f).domain.2 := domain ▸ lt
  have count : (c.applyFractional f).pointCount = c.pointCount := pointCount_applyFractional f
  have knots : ((c.applyFractional f).applyFractional g).knots
      = (c.applyFractional (f * g)).knots := by
    rw [knots_applyFractional g lt' posg.ne', knots_applyFractional f lt posf.ne', domain,
        knots_applyFractional (f * g) lt (mul_pos posf posg).ne', KnotVector.map, KnotVector.map,
        List.map_map]
    refine congrArg KnotVector.mk (List.map_congr_left fun k hk => ?_)
    obtain ⟨low, high⟩ := within k hk
    exact fractionalMap_fractionalMap lt g (fractionalDivisor_pos posf lt low high).ne'
  have vectors : ((c.applyFractional f).applyFractional g).points.vectors
      = (c.applyFractional (f * g)).points.vectors := by
    have length : ((c.applyFractional f).applyFractional g).points.vectors.length
        = (c.applyFractional (f * g)).points.vectors.length :=
      (pointCount_applyFractional g).trans (count.trans (pointCount_applyFractional (f * g)).symm)
    refine List.ext_getElem length fun j hj hj' => ?_
    have inside : j < c.pointCount := hj'.trans_eq (pointCount_applyFractional (f * g))
    rw [← List.getD_eq_getElem _ [] hj, ← List.getD_eq_getElem _ [] hj',
        moved.getD_applyFractional g (count.symm ▸ inside), h.getD_applyFractional f inside,
        h.getD_applyFractional (f * g) inside, Point.scale_scale, domain, one_div_mul_one_div,
        ← h.prod_fractionalDivisor within lt posf inside]
    rfl
  have points : ((c.applyFractional f).applyFractional g).points
      = (c.applyFractional (f * g)).points :=
    ControlPoints.eq_of_vectors_eq (by
      show ((c.applyFractional f).applyFractional g).isRational
        = (c.applyFractional (f * g)).isRational
      simp only [isRational_applyFractional]) vectors
  exact Curve.mk.injEq .. ▸ ⟨rfl, rfl, points, knots⟩

/-! ## §3. Reparameterizations. -/

variable [Precision K] [Precision.Exact K]

/-- **Reparameterizations compose.**  On a clamped rational curve the factors `f` and then `g`
give the knots and the control vectors of the factor `f·g`, and a factor and then its inverse
give back the curve. -/
theorem reparameterize_mul (valid : c.isValid = true) (rational : c.isRational = true)
    (start : c.isClamped .start = true) (finish : c.isClamped .finish = true) (posf : 0 < f)
    (posg : 0 < g) :
    (∃ b e, c.reparameterize f = .ok b ∧ b.reparameterize g = .ok e
        ∧ c.reparameterize (f * g) = .ok e)
      ∧ ∃ b, c.reparameterize f = .ok b ∧ b.reparameterize (1 / f) = .ok c := by
  have regular := regular_of_isValid valid
  have sound := regular.toSound
  have lt := regular.domain_lt
  obtain ⟨-, -, within⟩ := sound.within_clampEnds lt (sound.clampEnds_of_isClamped start finish)
  have moved : (c.applyFractional f).Sound := sound.applyFractional within lt posf
  have lt' : (c.applyFractional f).domain.1 < (c.applyFractional f).domain.2 := by
    rw [domain_applyFractional sound posf lt]
    exact lt
  have first := sound.reparameterize_of_isClamped lt start finish rational posf
  have second : ∀ {g : K}, 0 < g → (c.applyFractional f).reparameterize g
      = .ok (c.applyFractional (f * g)) := fun {g} pos => by
    rw [moved.reparameterize_of_isClamped lt' (sound.isClamped_applyFractional lt posf start)
          (sound.isClamped_applyFractional lt posf finish)
          ((isRational_applyFractional f).trans rational) pos,
        sound.applyFractional_applyFractional within lt posf pos]
  refine ⟨⟨_, _, first, second posg, ?_⟩, _, first, ?_⟩
  · exact sound.reparameterize_of_isClamped lt start finish rational (mul_pos posf posg)
  · rw [second (one_div_pos.2 posf), mul_one_div_cancel posf.ne', applyFractional_one lt]

/-- A rational curve of degree 2 with a knot between its clamped ends. -/
def clampedArch : Curve ℚ where
  dimension := 1
  order := 3
  points := .homogeneous [[0, 1], [2, 1], [3, 2], [1, 1]]
  knots := ⟨[0, 0, 1, 3, 3]⟩

/-- Three times and then a third of the factor leaves the arch as it was. -/
theorem reparameterize_mul_clampedArch :
    clampedArch.isValid = true ∧ clampedArch.isRational = true
      ∧ clampedArch.isClamped .start = true ∧ clampedArch.isClamped .finish = true
      ∧ (0 : ℚ) < 3 ∧ (0 : ℚ) < 1 / 2
      ∧ (∃ b e, clampedArch.reparameterize 3 = .ok b ∧ b.reparameterize (1 / 2) = .ok e
        ∧ clampedArch.reparameterize (3 * (1 / 2)) = .ok e)
      ∧ ∃ b, clampedArch.reparameterize 3 = .ok b ∧ b.reparameterize (1 / 3) = .ok clampedArch := by
  have valid : clampedArch.isValid = true := by decide +kernel
  have start : clampedArch.isClamped .start = true := by decide +kernel
  have finish : clampedArch.isClamped .finish = true := by decide +kernel
  have pos : (0 : ℚ) < 3 := by norm_num
  have pos' : (0 : ℚ) < 1 / 2 := by norm_num
  exact ⟨valid, rfl, start, finish, pos, pos',
    reparameterize_mul valid rfl start finish pos pos'⟩

end Curve

end RationalSpline
