/-
  RationalSpline.Proofs.ClampedEnds
  ─────────────────────────────────
  CLAMPING ONE END, TWICE, OR BOTH.

  Clamping an end stores full multiplicity of its parameter and the knots on the other
  side of it, and nothing else.  A clamped end is left alone, so the second time changes
  nothing.  The knots of both ends do not depend on which is clamped first, and as both
  orders keep the pieces of the curve, neither do the control vectors.
-/
import RationalSpline.Proofs.Regularity
import RationalSpline.Proofs.Uniqueness

namespace RationalSpline.Curve

variable {K : Type} [Field K] [LinearOrder K] {c e : Curve K}

/-! ## §1. The knots of a clamped end. -/

/-- The parameter at an end of the domain. -/
def endParameter (c : Curve K) : CurveEnd → K
  | .start => c.domain.1
  | .finish => c.domain.2

/-- The knots on the other side of that parameter, the opposite end and what lies beyond
it included. -/
def knotsBehind (c : Curve K) : CurveEnd → List K
  | .start => c.knots.values.filter fun k => decide (c.domain.1 < k)
  | .finish => c.knots.values.filter fun k => decide (k < c.domain.2)

/-- Full multiplicity of the parameter at an end, and the knots behind. -/
def clampedKnots (c : Curve K) : CurveEnd → List K
  | .start => List.replicate c.degree (c.endParameter .start) ++ c.knotsBehind .start
  | .finish => c.knotsBehind .finish ++ List.replicate c.degree (c.endParameter .finish)

theorem endParameter_notMem_knotsBehind (c : Curve K) (side : CurveEnd) :
    c.endParameter side ∉ c.knotsBehind side := by
  cases side <;> simp [endParameter, knotsBehind]

/-- Those are exactly as many copies as the degree. -/
theorem count_clampedKnots (c : Curve K) (side : CurveEnd) :
    (c.clampedKnots side).count (c.endParameter side) = c.degree := by
  have none := List.count_eq_zero.2 (c.endParameter_notMem_knotsBehind side)
  cases side <;> simp only [clampedKnots, List.count_append, List.count_replicate_self, none] <;>
    omega

/-- Both ends at full multiplicity, and the knots between them. -/
def clampedBoth (c : Curve K) : List K :=
  List.replicate c.degree c.domain.1
    ++ (c.knots.values.filter fun k => decide (c.domain.1 < k ∧ k < c.domain.2))
    ++ List.replicate c.degree c.domain.2

/-- Clamping the other end of knots with a clamped end gives the knots of both. -/
theorem clampedKnots_of_clamped (domain : c.domain.1 < c.domain.2) (same : e.domain = c.domain)
    (degree : e.degree = c.degree) :
    (e.knots.values = c.clampedKnots .start → e.clampedKnots .finish = c.clampedBoth)
      ∧ (e.knots.values = c.clampedKnots .finish → e.clampedKnots .start = c.clampedBoth) := by
  simp only [clampedKnots, knotsBehind, endParameter, clampedBoth, same, degree]
  constructor
  · intro values
    rw [values, List.filter_append, List.filter_replicate, List.filter_filter,
        if_pos (decide_eq_true domain)]
    simp only [Bool.decide_and, Bool.and_comm]
  · intro values
    rw [values, List.filter_append, List.filter_replicate, List.filter_filter,
        if_pos (decide_eq_true domain), List.append_assoc]
    simp only [Bool.decide_and]

/-! ## §2. One end. -/

/-- A clamped end is left alone. -/
theorem Sound.clampEnd_of_isClamped (h : c.Sound) {side : CurveEnd}
    (clamped : c.isClamped side = true) : c.clampEnd side = .ok c := by
  cases side with
  | start => exact if_pos clamped
  | finish =>
      have mirrored : c.invert.isClamped .start = true := h.isClamped_invert.1.trans clamped
      show (c.invert.clampStart).map Curve.invert = _
      rw [show c.invert.clampStart = .ok c.invert from if_pos mirrored]
      exact congrArg Except.ok c.invert_invert

theorem Sound.clampEnds_of_isClamped (h : c.Sound) (start : c.isClamped .start = true)
    (finish : c.isClamped .finish = true) : c.clampEnds = .ok c := by
  rw [Curve.clampEnds, h.clampEnd_of_isClamped start]
  exact h.clampEnd_of_isClamped finish

variable [IsStrictOrderedRing K]

/-- **What clamping an end of a regular curve stores.** -/
theorem Regular.exists_clampEnd (h : c.Regular) (side : CurveEnd) :
    ∃ e, c.clampEnd side = .ok e ∧ e.Regular ∧ Keeps c e ∧ e.pointCount = c.pointCount
      ∧ e.isClamped side = true ∧ e.knots.values = c.clampedKnots side := by
  obtain ⟨e, ok, regular, keeps, count⟩ := h.clampEnd side
  refine ⟨e, ok, regular, keeps, count, ?_⟩
  cases side with
  | start =>
      obtain ⟨b, ok', -, -, clamped, values⟩ := h.toSound.clampStart h.domain_lt
      cases ok.symm.trans ok'
      rw [max_eq_right (h.count_le _)] at values
      exact ⟨clamped, values⟩
  | finish =>
      obtain ⟨b, ok', -, -, clamped, values⟩ := h.toSound.clampFinish h.domain_lt
      cases ok.symm.trans ok'
      rw [max_eq_right (h.count_le _)] at values
      exact ⟨clamped, values⟩

/-! ## §3. Both ends. -/

/-- **Which end is clamped first makes no difference.** -/
theorem Regular.clampEnd_comm (h : c.Regular) :
    ∃ e, ((c.clampEnd .start).bind fun b => b.clampEnd .finish) = .ok e
      ∧ ((c.clampEnd .finish).bind fun b => b.clampEnd .start) = .ok e := by
  obtain ⟨a, first, regular, keeps, -, -, values⟩ := h.exists_clampEnd .start
  obtain ⟨b, first', regular', keeps', -, -, values'⟩ := h.exists_clampEnd .finish
  obtain ⟨e, second, both, kept, -, -, knots⟩ := regular.exists_clampEnd .finish
  obtain ⟨e', second', both', kept', -, -, knots'⟩ := regular'.exists_clampEnd .start
  have same : e'.knots.values = e.knots.values := by
    rw [knots, knots', (clampedKnots_of_clamped h.domain_lt keeps.domain keeps.degree).1 values,
        (clampedKnots_of_clamped h.domain_lt keeps'.domain keeps'.degree).2 values']
  have equal : e' = e := both.eq_of_keeps h.toSound both'.toSound (keeps.trans kept)
    (keeps'.trans kept') (congrArg KnotVector.mk same)
  refine ⟨e, ?_, ?_⟩
  · rw [first]
    exact second
  · rw [first', ← equal]
    exact second'

/-- **Clamping keeps the curve.**  An end of a valid curve can always be clamped.  Its
parameter is then a knot as often as the degree says, the knots behind it are the ones
before, and order, control point count, rational flag, domain and values stay.  Clamping
it again changes nothing, and the two ends can be clamped in either order. -/
theorem clampEnd_keeps_curve [Precision K] [Precision.Exact K] (valid : c.isValid = true) :
    (∀ side, ∃ e, c.clampEnd side = .ok e
      ∧ e.dimension = c.dimension ∧ e.order = c.order ∧ e.pointCount = c.pointCount
      ∧ e.isRational = c.isRational ∧ e.domain = c.domain
      ∧ e.isClamped side = true ∧ e.knots.count (c.endParameter side) = c.degree
      ∧ e.knots.values = c.clampedKnots side
      ∧ (∀ t, c.domain.1 ≤ t → t ≤ c.domain.2 →
          e.definedVector t = c.definedVector t ∧ e.definedAt t = c.definedAt t)
      ∧ e.clampEnd side = .ok e)
      ∧ ∃ e, ((c.clampEnd .start).bind fun b => b.clampEnd .finish) = .ok e
        ∧ ((c.clampEnd .finish).bind fun b => b.clampEnd .start) = .ok e := by
  have regular := regular_of_isValid valid
  refine ⟨fun side => ?_, regular.clampEnd_comm⟩
  obtain ⟨e, ok, after, keeps, count, clamped, values⟩ := regular.exists_clampEnd side
  have copies : e.knots.count (c.endParameter side) = c.degree := by
    rw [KnotVector.count_eq_list_count, values, count_clampedKnots]
  exact ⟨e, ok, keeps.dimension, keeps.order, count, keeps.rational, keeps.domain, clamped, copies,
    values, fun t h₀ h₁ =>
      ⟨keeps.definedVector_eq regular.toSound after.toSound regular.domain_lt h₀ h₁,
        keeps.definedAt_eq regular.toSound after.toSound regular.domain_lt h₀ h₁⟩,
    after.toSound.clampEnd_of_isClamped clamped⟩

/-- A rational curve whose start is open. -/
theorem clampEnd_keeps_openStart :
    openStart.isValid = true ∧
      ∃ e, openStart.clampEnd .start = .ok e ∧ e.knots.values = [1, 1, 2, 3, 3]
        ∧ e.definedAt 2 = openStart.definedAt 2 ∧ e.clampEnd .start = .ok e := by
  have valid : openStart.isValid = true := by decide +kernel
  obtain ⟨e, ok, -, -, -, -, -, -, -, values, value, again⟩ :=
    (clampEnd_keeps_curve valid).1 .start
  exact ⟨valid, e, ok, values.trans (by decide +kernel),
    (value 2 (by decide +kernel) (by decide +kernel)).2, again⟩

end RationalSpline.Curve
