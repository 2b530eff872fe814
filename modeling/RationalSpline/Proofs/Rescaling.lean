/-
  RationalSpline.Proofs.Rescaling
  ───────────────────────────────
  ANOTHER DOMAIN.

  Moving the domain of a curve to another interval is a change of the parameter that
  scales all distances alike.  Hence the knots keep their order and their repetitions, the
  values go with the parameter, and two changes are one: the way back restores the curve,
  and seen from the unit interval the curve has not changed at all.
-/
import RationalSpline.Proofs.Placement
import RationalSpline.Proofs.Duplicates
import RationalSpline.Proofs.Insertion

namespace RationalSpline

variable {K : Type} [Field K] [LinearOrder K]

namespace Curve

/-! ## §1. Intervals. -/

section Intervals

variable {source middle target : K × K}

theorem affineMap_fst (source target : K × K) : affineMap source target source.1 = target.1 := by
  simp [affineMap]

variable [IsStrictOrderedRing K]

theorem affineMap_snd (hs : source.1 < source.2) (target : K × K) :
    affineMap source target source.2 = target.2 := by
  rw [affineMap, mul_div_cancel₀ _ (sub_pos.2 hs).ne', add_sub_cancel]

/-- The interval stays where it is. -/
theorem affineMap_self (hs : source.1 < source.2) (k : K) : affineMap source source k = k := by
  rw [affineMap, div_self (sub_pos.2 hs).ne', mul_one, add_sub_cancel]

/-- Two changes of the interval are one. -/
theorem affineMap_affineMap (hm : middle.1 < middle.2) (k : K) :
    affineMap middle target (affineMap source middle k) = affineMap source target k := by
  have length : middle.2 - middle.1 ≠ 0 := (sub_pos.2 hm).ne'
  unfold affineMap
  field_simp
  ring

end Intervals

end Curve

/-- One interval on another: all distances change as the lengths do. -/
theorem Scales.affineMap [IsStrictOrderedRing K] {source target : K × K}
    (hs : source.1 < source.2) (ht : target.1 < target.2) :
    Scales (Curve.affineMap source target)
      ((target.2 - target.1) / (source.2 - source.1)) where
  pos := div_pos (sub_pos.2 ht) (sub_pos.2 hs)
  sub_eq x y := by
    unfold Curve.affineMap
    ring

namespace Curve

variable [IsStrictOrderedRing K] {c : Curve K} {t0 t1 : K}

/-! ## §2. The curve on another domain. -/

/-- The curve on the domain from `t0` to `t1`. -/
def rescale (c : Curve K) (t0 t1 : K) : Curve K := c.mapKnots (affineMap c.domain (t0, t1))

/-- Nothing changes on the domain the curve has already. -/
theorem rescale_domain (domain : c.domain.1 < c.domain.2) :
    c.rescale c.domain.1 c.domain.2 = c := by
  have knots : c.knots.map (affineMap c.domain c.domain) = c.knots := by
    refine congrArg KnotVector.mk ?_
    rw [funext (affineMap_self domain)]
    exact List.map_id'' (fun _ => rfl) _
  rw [rescale, Prod.mk.eta, mapKnots, knots]

/-- The domain it has already is no exception. -/
theorem setDomain_eq (domain : c.domain.1 < c.domain.2) (lt : t0 < t1) :
    c.setDomain t0 t1 = .ok (c.rescale t0 t1) := by
  unfold setDomain
  rw [if_pos lt]
  split
  · next same =>
      obtain ⟨first, last⟩ := Bool.and_eq_true_iff.1 same
      rw [← eq_of_beq first, ← eq_of_beq last, rescale_domain domain]
  · rw [rescale, mapKnots, remap_eq_map _ domain]

/-- Two domains in turn are the second one. -/
theorem map_affineMap (U : KnotVector K) {source middle target : K × K}
    (hm : middle.1 < middle.2) :
    (U.map (affineMap source middle)).map (affineMap middle target)
      = U.map (affineMap source target) := by
  refine congrArg KnotVector.mk ?_
  rw [KnotVector.map, List.map_map]
  exact List.map_congr_left fun k _ => affineMap_affineMap hm k

namespace Sound

variable (h : c.Sound) (domain : c.domain.1 < c.domain.2) (lt : t0 < t1)
include h domain

theorem domain_rescale : (c.rescale t0 t1).domain = (t0, t1) := by
  rw [rescale, h.domain_mapKnots, affineMap_fst, affineMap_snd domain]

include lt

theorem rescale : (c.rescale t0 t1).Sound :=
  h.mapKnots fun _ _ _ _ le => (Scales.affineMap domain lt).le_iff.2 le

/-- The way back restores the curve. -/
theorem rescale_rescale : (c.rescale t0 t1).rescale c.domain.1 c.domain.2 = c := by
  have knots : (c.rescale t0 t1).knots.map (affineMap (t0, t1) c.domain)
      = c.knots.map (affineMap c.domain c.domain) := map_affineMap c.knots lt
  have once : (c.rescale t0 t1).rescale c.domain.1 c.domain.2
      = c.rescale c.domain.1 c.domain.2 := by
    rw [Curve.rescale, h.domain_rescale domain, Prod.mk.eta, Curve.mapKnots, knots]
    rfl
  rw [once, rescale_domain domain]

/-- Seen from the unit interval the knots are the same. -/
theorem comparedKnots_rescale : (c.rescale t0 t1).comparedKnots true = c.comparedKnots true := by
  rw [comparedKnots, comparedKnots, if_pos rfl, if_pos rfl, h.domain_rescale domain,
      remap_eq_map _ lt, remap_eq_map _ domain]
  exact congrArg KnotVector.values (map_affineMap c.knots lt)

/-- The curve is a duplicate of itself on another domain, as long as nobody asks for the
parameter. -/
theorem isDuplicate_rescale [Analytic K] (root : Analytic.sqrt (0 : K) = 0) (tolerance : K) :
    c.isDuplicate (c.rescale t0 t1) true tolerance = true := by
  have small := (zeroTolerance_pos (K := K)).le
  refine isDuplicate_iff.2 ⟨⟨rfl, rfl, rfl, rfl, fun i _ => ?_⟩, ?_⟩
  · have place : (c.rescale t0 t1).points = c.points := rfl
    rw [place, Point.norm_sub_self root, sub_self, Scalar.abs_eq, abs_zero]
    exact ⟨le_max_of_le_right small, le_max_of_le_right small⟩
  · rintro ⟨x, y⟩ member
    rw [h.comparedKnots_rescale domain lt] at member
    rw [List.zip, List.zipWith_self, List.mem_map] at member
    obtain ⟨z, -, same⟩ := member
    cases same
    rw [sub_self, abs_zero, knotTolerance_ignoring]
    exact small

end Sound

/-- **Moving the domain of a valid curve is an affine change of its parameter**: it
succeeds, the knots keep their order and repetitions, the values go with the parameter,
moving the domain back restores the curve, and the curve on the new domain is a duplicate
of the old one apart from the parameter. -/
theorem setDomain_rescales [Precision K] [Precision.Spaced K] [Analytic K]
    (root : Analytic.sqrt (0 : K) = 0) (valid : c.isValid = true) (lt : t0 < t1) :
    ∃ e, c.setDomain t0 t1 = .ok e
      ∧ e.domain = (t0, t1)
      ∧ e.knots.isNonDecreasing = true
      ∧ e.knotCount = c.knotCount
      ∧ (∀ i < c.knotCount, ∀ j < c.knotCount,
          e.knots.knot i = e.knots.knot j ↔ c.knots.knot i = c.knots.knot j)
      ∧ (∀ t, e.definedAt (t0 + (t - c.domain.1) / (c.domain.2 - c.domain.1) * (t1 - t0))
          = c.definedAt t)
      ∧ e.setDomain c.domain.1 c.domain.2 = .ok c
      ∧ ∀ tolerance, c.isDuplicate e true tolerance = true := by
  have sound := (regular_of_isValid valid).toSound
  have domain := (regular_of_isValid valid).domain_lt
  have scales : Scales (affineMap c.domain (t0, t1)) _ := Scales.affineMap domain lt
  have moved : (c.rescale t0 t1).domain = (t0, t1) := sound.domain_rescale domain
  refine ⟨c.rescale t0 t1, setDomain_eq domain lt, moved,
    (KnotVector.isNonDecreasing_iff _).2 (sound.rescale domain lt).ordered,
    KnotVector.size_map _ _, fun i hi j hj => ?_, fun t => ?_, ?_,
    sound.isDuplicate_rescale domain lt root⟩
  · rw [Curve.rescale, mapKnots, KnotVector.knot_map _ _ hi, KnotVector.knot_map _ _ hj]
    exact scales.injective.eq_iff
  · have parameter : t0 + (t - c.domain.1) / (c.domain.2 - c.domain.1) * (t1 - t0)
        = affineMap c.domain (t0, t1) t := by
      unfold affineMap
      ring
    rw [parameter]
    exact definedAt_congr rfl (sound.definedVector_mapKnots scales t)
  · have lt' : (c.rescale t0 t1).domain.1 < (c.rescale t0 t1).domain.2 := by
      rw [moved]
      exact lt
    rw [setDomain_eq lt' domain, sound.rescale_rescale domain lt]

/-- An open start, with a knot beyond the domain. -/
theorem setDomain_rescales_openStart :
    Analytic.sqrt (0 : ℚ) = 0 ∧ openStart.isValid = true ∧ (-2 : ℚ) < 1 / 3
      ∧ ∃ e, openStart.setDomain (-2) (1 / 3) = .ok e
        ∧ e.domain = (-2, 1 / 3)
        ∧ e.knots.isNonDecreasing = true
        ∧ e.knotCount = openStart.knotCount
        ∧ (∀ i < openStart.knotCount, ∀ j < openStart.knotCount,
            e.knots.knot i = e.knots.knot j ↔ openStart.knots.knot i = openStart.knots.knot j)
        ∧ (∀ t, e.definedAt (-2 + (t - openStart.domain.1)
              / (openStart.domain.2 - openStart.domain.1) * (1 / 3 - -2))
            = openStart.definedAt t)
        ∧ e.setDomain openStart.domain.1 openStart.domain.2 = .ok openStart
        ∧ ∀ tolerance, openStart.isDuplicate e true tolerance = true :=
  have root : Analytic.sqrt (0 : ℚ) = 0 := by decide +kernel
  have valid : openStart.isValid = true := by decide +kernel
  have lt : (-2 : ℚ) < 1 / 3 := by norm_num
  ⟨root, valid, lt, setDomain_rescales root valid lt⟩

end Curve

end RationalSpline
