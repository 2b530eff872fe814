/-
  RationalSpline.Proofs.Removal
  ─────────────────────────────
  WHAT A REMOVAL LEAVES IS A CURVE.

  Only interior knots are removed, so the ends of the domain stay, and enough control
  points are left for a span.
-/
import RationalSpline.Proofs.Regularity
import RationalSpline.Proofs.RemovedKnots

namespace RationalSpline

variable {K : Type} [Field K] [LinearOrder K]

/-- A part of a padded vector leaves a part of the vector. -/
theorem KnotVector.sublist_unpadded {α : Type} {U W : KnotVector α}
    (h : U.values.Sublist W.values) :
    U.unpadded.values.Sublist W.unpadded.values := by
  have backwards := h.tail.reverse.tail
  rw [List.tail_reverse, List.tail_reverse] at backwards
  exact List.reverse_sublist.1 backwards

namespace Curve

open Spline (downFrom Without)

variable {c e : Curve K} [IsStrictOrderedRing K] [Precision K] [Precision.Exact K]

omit [IsStrictOrderedRing K] [Precision.Exact K] in
/-- **What removal gives.** -/
theorem removeKnots_eq_ok {index0 index1 : Nat} (ok : c.removeKnots index0 index1 = .ok e) :
    c.isValid = true ∧ c.order - 1 ≤ index0 ∧ index0 < index1 ∧ index1 ≤ c.pointCount - 1
      ∧ (∀ i, index0 ≤ i → i < index1 →
        c.domain.1 < c.knots.knot i ∧ c.knots.knot i < c.domain.2)
      ∧ ∃ T, removeEach c.spline (downFrom index0 (index1 - index0)) = some T
        ∧ e = c.withSpline T := by
  obtain ⟨valid, low, lt, high, inner, removed⟩ := of_removeKnots_eq_ok ok
  exact ⟨valid, low, lt, high, fun i hi hi' =>
    ⟨not_le.1 (inner i hi hi').1, not_le.1 (inner i hi hi').2⟩, removed⟩

/-- Removal keeps a curve sound, takes as many control points as knots, and keeps the domain. -/
theorem removeKnots_spec {index0 index1 : Nat} (ok : c.removeKnots index0 index1 = .ok e) :
    e.Sound ∧ e.dimension = c.dimension ∧ e.order = c.order ∧ e.domain = c.domain
      ∧ e.knots.values.Sublist c.knots.values
      ∧ e.knotCount + (index1 - index0) = c.knotCount
      ∧ e.pointCount + (index1 - index0) = c.pointCount := by
  obtain ⟨-, -, domain, -, -⟩ := removeKnots_keeps ok
  obtain ⟨valid, low, lt, high, -, T, some, rfl⟩ := removeKnots_eq_ok ok
  have h := regular_of_isValid valid
  obtain ⟨two, enough, size, degree⟩ := h.counts
  have padded := size_padded_knots h.toSound
  have knots : c.knotCount = c.knots.size := rfl
  have length : c.spline.points.length = c.pointCount := rfl
  have points : c.points.vectors.length = c.pointCount := rfl
  have splineDegree : c.spline.degree = c.degree := rfl
  have without := Spline.without_removeEach some
  have size' := without.size
  have length' := without.length
  have degree' := without.degree
  have sub : (c.withSpline T).knots.values.Sublist c.knots.values := by
    have parts := KnotVector.sublist_unpadded without.knots
    rwa [show c.spline.knots.unpadded = c.knots from KnotVector.unpadded_padded _ _] at parts
  have order : (c.withSpline T).order = c.order := by
    show T.degree + 1 = c.order
    omega
  have count : (c.withSpline T).pointCount = T.points.length := pointCount_withSpline c T
  have knotCount' : (c.withSpline T).knotCount = T.knots.size - 2 := knotCount_withSpline c T
  have positive : 0 < T.degree := by omega
  have within : T.degree < T.points.length := by omega
  have whole : T.knots.size = T.points.length + T.degree + 1 := by omega
  have sound : (c.withSpline T).Sound :=
    sound_withSpline positive within whole (h.toSound.ordered_padded.sublist without.knots)
      (without.sized _ h.sized)
  exact ⟨sound, rfl, order, domain, sub, by omega, by omega⟩

/-- **A curve without some of its knots is regular if its weights are positive.** -/
theorem Regular.removeKnots (h : c.Regular) {index0 index1 : Nat}
    (ok : c.removeKnots index0 index1 = .ok e) (positive : e.points.Positive) : e.Regular := by
  obtain ⟨sound, dimension, order, domain, sub, knots, points⟩ := removeKnots_spec ok
  have start := h.countUpTo_start
  have finish := h.countBelow_finish
  have degree : e.degree = c.degree := by rw [degree, order, Curve.degree]
  refine sound.regular_of_counts (dimension ▸ h.dimension_pos) positive ?_ ?_ fun u => ?_
  · rw [domain, degree, ← start]
    exact sub.countP_le
  · have loss := sub.le_countP fun k => decide (k < c.domain.2)
    rw [domain]
    change c.knots.countBelow c.domain.2 - (c.knotCount - e.knotCount)
      ≤ e.knots.countBelow c.domain.2 at loss
    omega
  · rw [degree, KnotVector.count_eq_list_count]
    refine le_trans (sub.count_le u) ?_
    rw [← KnotVector.count_eq_list_count]
    exact h.count_le u

end Curve

end RationalSpline
