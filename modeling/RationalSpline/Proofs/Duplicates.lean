/-
  RationalSpline.Proofs.Duplicates
  ────────────────────────────────
  DUPLICATES, SEEN FROM EITHER CURVE.

  Whether two curves have one shape and the same control points does not depend on which
  of them asks.  How far their knots may differ does: unless the parameterization is
  ignored, the tolerance grows with the domain of the curve that asks.  So the answers
  differ exactly where all knots agree within the larger of the two tolerances and some
  do not within the smaller one.
-/
import RationalSpline.Proofs.Distances
import RationalSpline.Proofs.Sound
import RationalSpline.Curve.Comparison

namespace RationalSpline

variable {K : Type} [Field K] [LinearOrder K]

/-! ## §1. What is compared. -/

namespace Curve

variable {a b c : Curve K}

/-- `b` has the shape of `a`, and its locations and weights are those of `a` within the
tolerance. -/
structure SamePlaces [Analytic K] (a b : Curve K) (tolerance : K) : Prop where
  /-- The locations have as many coordinates. -/
  dimension : b.dimension = a.dimension
  /-- The vectors have one meaning. -/
  rational : b.isRational = a.isRational
  /-- The orders agree. -/
  order : b.order = a.order
  /-- There are as many control points. -/
  pointCount : b.pointCount = a.pointCount
  /-- The control points agree, one by one. -/
  close : ∀ i < a.pointCount,
    Point.norm (Point.sub (a.points.location i) (b.points.location i))
        ≤ max tolerance Scalar.zeroTolerance
      ∧ Scalar.abs (a.points.weight i - b.points.weight i) ≤ max tolerance Scalar.zeroTolerance

/-- The knots of `b` are those of `a` within a distance. -/
def KnotsWithin (a b : Curve K) (ignoreParameterization : Bool) (distance : K) : Prop :=
  ∀ xy ∈ (a.comparedKnots ignoreParameterization).zip (b.comparedKnots ignoreParameterization),
    |xy.1 - xy.2| ≤ distance

section Shape

variable {ignoreParameterization : Bool} {tolerance distance distance' : K}

theorem KnotsWithin.mono (h : KnotsWithin a b ignoreParameterization distance)
    (le : distance ≤ distance') : KnotsWithin a b ignoreParameterization distance' :=
  fun xy member => (h xy member).trans le

theorem KnotsWithin.symm (h : KnotsWithin a b ignoreParameterization distance) :
    KnotsWithin b a ignoreParameterization distance := by
  rintro ⟨y, x⟩ member
  rw [abs_sub_comm]
  refine h (x, y) ?_
  rw [← List.zip_swap]
  exact List.mem_map.2 ⟨(y, x), member, rfl⟩

variable [IsStrictOrderedRing K] [Analytic K]

theorem SamePlaces.symm (h : SamePlaces a b tolerance) : SamePlaces b a tolerance where
  dimension := h.dimension.symm
  rational := h.rational.symm
  order := h.order.symm
  pointCount := h.pointCount.symm
  close i hi := by
    obtain ⟨place, weight⟩ := h.close i (h.pointCount ▸ hi)
    rw [Point.norm_sub_comm, Scalar.abs_eq, abs_sub_comm, ← Scalar.abs_eq]
    exact ⟨place, weight⟩

/-- **When the curve `a` takes `b` for a duplicate.** -/
theorem isDuplicate_iff : a.isDuplicate b ignoreParameterization tolerance = true
    ↔ SamePlaces a b tolerance
      ∧ KnotsWithin a b ignoreParameterization (a.knotTolerance ignoreParameterization) := by
  simp only [isDuplicate, samePoints, Bool.and_eq_true, beq_iff_eq, List.all_eq_true,
    List.mem_range, decide_eq_true_eq, Scalar.maxNum_eq, Scalar.abs_eq]
  constructor
  · rintro ⟨⟨⟨⟨⟨dimension, rational⟩, order⟩, count⟩, close⟩, knots⟩
    refine ⟨⟨dimension.symm, rational.symm, order.symm, count.symm, fun i hi => ?_⟩, knots⟩
    rw [Scalar.abs_eq]
    exact close i hi
  · rintro ⟨same, knots⟩
    refine ⟨⟨⟨⟨⟨same.dimension.symm, same.rational.symm⟩, same.order.symm⟩,
      same.pointCount.symm⟩, fun i hi => ?_⟩, knots⟩
    rw [← Scalar.abs_eq]
    exact same.close i hi

end Shape

/-! ## §2. The tolerance for the knots. -/

/-- Without a parameterization there is one tolerance for all curves. -/
theorem knotTolerance_ignoring (c : Curve K) :
    c.knotTolerance true = Scalar.zeroTolerance := mul_one _

variable [IsStrictOrderedRing K]

theorem zeroTolerance_pos : (0 : K) < Scalar.zeroTolerance := by
  show (0 : K) < 1 / ((4294967296 : Nat) : K)
  positivity

/-- Two curves give each other one answer unless the knots agree within the larger of their
tolerances only. -/
theorem isDuplicate_eq_iff [Analytic K] (a b : Curve K) (ignoreParameterization : Bool)
    (tolerance : K) :
    a.isDuplicate b ignoreParameterization tolerance
        = b.isDuplicate a ignoreParameterization tolerance
      ↔ ¬(SamePlaces a b tolerance
        ∧ KnotsWithin a b ignoreParameterization
            (max (a.knotTolerance ignoreParameterization) (b.knotTolerance ignoreParameterization))
        ∧ ¬KnotsWithin a b ignoreParameterization
            (min (a.knotTolerance ignoreParameterization)
              (b.knotTolerance ignoreParameterization))) := by
  have swapPlaces : SamePlaces b a tolerance ↔ SamePlaces a b tolerance := ⟨.symm, .symm⟩
  have swapKnots : ∀ distance, KnotsWithin b a ignoreParameterization distance
      ↔ KnotsWithin a b ignoreParameterization distance := fun _ => ⟨.symm, .symm⟩
  rw [Bool.eq_iff_iff, isDuplicate_iff, isDuplicate_iff, swapPlaces, swapKnots]
  rcases le_total (a.knotTolerance ignoreParameterization) (b.knotTolerance ignoreParameterization)
    with le | le
  · rw [max_eq_right le, min_eq_left le]
    have wider : KnotsWithin a b ignoreParameterization _ → _ := fun h => h.mono le
    tauto
  · rw [max_eq_left le, min_eq_right le]
    have wider : KnotsWithin a b ignoreParameterization _ → _ := fun h => h.mono le
    tauto

/-- **Two curves give each other one answer whenever the parameterization is ignored.  When
it counts they do so too, except where they have the same places and all knots agree
within the larger of the two tolerances, but not all within the smaller one.** -/
theorem isDuplicate_comm_iff [Analytic K] (a b : Curve K) (tolerance : K) :
    a.isDuplicate b true tolerance = b.isDuplicate a true tolerance
      ∧ (a.isDuplicate b false tolerance = b.isDuplicate a false tolerance
        ↔ ¬(SamePlaces a b tolerance
          ∧ KnotsWithin a b false (max (a.knotTolerance false) (b.knotTolerance false))
          ∧ ¬KnotsWithin a b false (min (a.knotTolerance false) (b.knotTolerance false)))) := by
  refine ⟨(isDuplicate_eq_iff a b true tolerance).2 ?_, isDuplicate_eq_iff a b false tolerance⟩
  rintro ⟨-, within, apart⟩
  rw [knotTolerance_ignoring, knotTolerance_ignoring, max_self] at within
  rw [knotTolerance_ignoring, knotTolerance_ignoring, min_self] at apart
  exact apart within

/-- A roof over a wide domain. -/
def wideRoof : Curve ℚ where
  dimension := 1
  order := 2
  points := .cartesian [[0], [1], [0]]
  knots := ⟨[-4294967296, 0, 4294967296]⟩

/-- The same roof over a domain wider by one, with the ridge a little more than one to the
right: by more than `wideRoof` allows, and by no more than this curve allows. -/
def widerRoof : Curve ℚ where
  dimension := 1
  order := 2
  points := .cartesian [[0], [1], [0]]
  knots := ⟨[-4294967296, 1 + 1 / 8589934592, 4294967297]⟩

/-- The two roofs agree without their parameterization, and are the exception with it. -/
theorem isDuplicate_comm_iff_wideRoof :
    wideRoof.isDuplicate widerRoof true 0 = widerRoof.isDuplicate wideRoof true 0
      ∧ SamePlaces wideRoof widerRoof 0
      ∧ KnotsWithin wideRoof widerRoof false
          (max (wideRoof.knotTolerance false) (widerRoof.knotTolerance false))
      ∧ ¬KnotsWithin wideRoof widerRoof false
          (min (wideRoof.knotTolerance false) (widerRoof.knotTolerance false)) := by
  have differ : ¬wideRoof.isDuplicate widerRoof false 0
      = widerRoof.isDuplicate wideRoof false 0 := by decide +kernel
  obtain ⟨alike, exception⟩ := isDuplicate_comm_iff wideRoof widerRoof 0
  exact ⟨alike, not_not.1 (mt exception.2 differ)⟩

theorem wideRoof_isDuplicate_ne :
    wideRoof.isValid = true ∧ widerRoof.isValid = true
      ∧ wideRoof.isDuplicate widerRoof false 0 ≠ widerRoof.isDuplicate wideRoof false 0 := by
  decide +kernel

end Curve

end RationalSpline
