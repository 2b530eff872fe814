/-
  RationalSpline.Proofs.FailedEdits
  ─────────────────────────────────
  WHAT A FAILED EDIT LEAVES BEHIND.

  Edits look before they change anything: where one is refused, the curve is the one
  before.  Two of them go on after the first change.  Splitting clamps the ends and then
  inserts knots, none of which is refused.  Setting the end weights clamps the ends and
  adds weights before the factor of the reparameterization is known; if that is no
  positive finite number, the edit fails and the clamped rational curve stays.

  All of this is decided by comparisons, so it holds in numbers that round.
-/
import RationalSpline.Proofs.Runs
import RationalSpline.Proofs.ArrangedEdits

namespace RationalSpline

/-! ## §1. Single steps. -/

/-- A sequence of two steps fails in one of them. -/
theorem bind_eq_error {ε β γ : Type} {x : Except ε β} {g : β → Except ε γ} {f : ε}
    (h : (x >>= g) = .error f) : x = .error f ∨ ∃ a, x = .ok a ∧ g a = .error f := by
  cases x with
  | error e =>
      cases h
      exact .inl rfl
  | ok a => exact .inr ⟨a, rfl, h⟩

namespace Curve

section Steps

variable {α : Type} [Scalar α] {c : Curve α}

/-- Clamping is never refused; it only may have no meaning. -/
theorem clampStart_eq_error {f : Failure α} (h : c.clampStart = .error f) : f = .undefined := by
  unfold clampStart at h
  split at h
  · cases h
  · dsimp only at h
    split at h
    · unfold trimStart at h
      dsimp only at h
      split at h
      · cases h
      · cases h
        rfl
    · cases h
      rfl

theorem clampEnd_eq_error {side : CurveEnd} {f : Failure α} (h : c.clampEnd side = .error f) :
    f = .undefined := by
  cases side with
  | start => exact clampStart_eq_error h
  | finish =>
      replace h : c.invert.clampStart.map invert = .error f := h
      cases clamped : c.invert.clampStart with
      | ok e =>
          rw [clamped] at h
          cases h
      | error g =>
          rw [clamped] at h
          cases h
          exact clampStart_eq_error clamped

theorem clampEnds_eq_error {f : Failure α} (h : c.clampEnds = .error f) : f = .undefined := by
  replace h : (c.clampEnd .start >>= fun c => c.clampEnd .finish) = .error f := h
  rcases bind_eq_error h with first | ⟨b, -, second⟩
  · exact clampEnd_eq_error first
  · exact clampEnd_eq_error second

variable [Precision α]

/-- A reparameterization is refused for its factor alone. -/
theorem reparameterize_eq_error {factor : α} {f : Failure α}
    (h : c.reparameterize factor = .error f) (refused : f ≠ .undefined) :
    Scalar.isWeight factor = false ∧ f = .outOfDomain (.reparameterization factor) := by
  unfold reparameterize at h
  split at h
  · split at h
    · cases h
    · cases clamped : c.clampEnds with
      | ok b =>
          rw [clamped] at h
          cases h
      | error g =>
          rw [clamped] at h
          cases h
          exact absurd (clampEnds_eq_error clamped) refused
  · next notWeight =>
      cases h
      exact ⟨Bool.eq_false_iff.2 notWeight, rfl⟩

/-- Raising the order is refused before the ends are clamped. -/
theorem raiseOrder_eq_error {order : Nat} {f : Failure α} (h : c.raiseOrder order = .error f)
    (refused : f ≠ .undefined) :
    order < c.order ∨ maxOrder < order ∨ c.validate = .error f := by
  unfold raiseOrder at h
  split at h
  · next outside => exact or_assoc.1 (.inl outside)
  · split at h
    · cases h
    · rcases bind_eq_error h with invalid | ⟨_, -, h⟩
      · exact .inr (.inr invalid)
      rcases bind_eq_error h with clamped | ⟨b, -, h⟩
      · exact absurd (clampEnds_eq_error clamped) refused
      cases h

/-- Two curves are refused before either of them is changed. -/
theorem append_eq_error {tail : Curve α} {f : Failure α} (h : c.append tail = .error f)
    (refused : f ≠ .undefined) :
    c.dimension ≠ tail.dimension ∨ c.validate = .error f ∨ tail.validate = .error f
      ∨ maxOrder < max c.order tail.order := by
  unfold append at h
  split at h
  · next differ => exact .inl differ
  · refine .inr ?_
    -- once both are valid, no order is too low, and an order too high is refused at once
    have lifted : ∀ {b : Curve α}, b.validate = .ok () → b.order ≤ max c.order tail.order →
        b.raiseOrder (max c.order tail.order) = .error f → maxOrder < max c.order tail.order := by
      intro b valid below raised
      rcases raiseOrder_eq_error raised refused with low | high | invalid
      · omega
      · exact high
      · cases valid.symm.trans invalid
    rcases bind_eq_error h with invalid | ⟨_, valid, h⟩
    · exact .inl invalid
    rcases bind_eq_error h with invalid | ⟨_, valid', h⟩
    · exact .inr (.inl invalid)
    refine .inr (.inr ?_)
    rcases bind_eq_error h with raised | ⟨r, -, h⟩
    · exact lifted valid (Nat.le_max_left _ _) raised
    rcases bind_eq_error h with raised | ⟨s, -, h⟩
    · exact lifted valid' (Nat.le_max_right _ _) raised
    dsimp only at h
    rcases bind_eq_error h with clamped | ⟨p, -, h⟩
    · exact absurd (clampEnds_eq_error clamped) refused
    rcases bind_eq_error h with clamped | ⟨q, -, h⟩
    · exact absurd (clampEnds_eq_error clamped) refused
    cases h

variable [Analytic α]

/-- The factor of the reparameterization that gives a clamped rational curve its end weights. -/
def endFactor (c : Curve α) (w0 w1 : α) : α :=
  Analytic.pow ((c.points.weight (c.pointCount - 1) * w0) / (c.points.weight 0 * w1))
    (1 / (c.degree : α))

/-- Once clamped and with weights, a curve can only be refused its factor. -/
theorem fitEndWeights_of_failure {w0 w1 : α} {f : Failure α}
    (failed : (c.fitEndWeights w0 w1).failure = some f) (refused : f ≠ .undefined) :
    (c.fitEndWeights w0 w1).curve = c ∧ Scalar.isWeight (c.endFactor w0 w1) = false
      ∧ f = .outOfDomain (.reparameterization (c.endFactor w0 w1)) := by
  dsimp only [fitEndWeights] at failed ⊢
  cases moved : c.reparameterize (c.endFactor w0 w1) with
  | ok m =>
      unfold endFactor at moved
      rw [moved] at failed
      cases failed
  | error g =>
      have reason := reparameterize_eq_error moved
      unfold endFactor at moved
      rw [moved] at failed ⊢
      cases failed
      exact ⟨rfl, reason refused⟩

/-- **End weights are refused** for themselves, and the curve stays as it was; or for the factor,
and the curve is left clamped and with weights. -/
theorem changeEndWeights_of_failure {w0 w1 : α} {f : Failure α}
    (failed : (c.changeEndWeights w0 w1).failure = some f) (refused : f ≠ .undefined) :
    (c.changeEndWeights w0 w1).curve = c ∧ (checkWeight w0 = .error f ∨ checkWeight w1 = .error f)
      ∨ ∃ b, checkWeight w0 = .ok () ∧ checkWeight w1 = .ok () ∧ c.clampEnds = .ok b
        ∧ (c.changeEndWeights w0 w1).curve = b.makeRational
        ∧ Scalar.isWeight (b.makeRational.endFactor w0 w1) = false
        ∧ f = .outOfDomain (.reparameterization (b.makeRational.endFactor w0 w1)) := by
  unfold changeEndWeights at failed ⊢
  cases first : checkWeight w0 with
  | error g =>
      rw [first] at failed
      cases failed
      exact .inl ⟨rfl, .inl rfl⟩
  | ok _ =>
      cases second : checkWeight w1 with
      | error g =>
          rw [first, second] at failed
          cases failed
          exact .inl ⟨rfl, .inr rfl⟩
      | ok _ =>
          rw [first, second] at failed
          dsimp only at failed ⊢
          split at failed
          · cases failed
          · next plain =>
              rw [if_neg plain]
              cases clamped : c.clampEnds with
              | error g =>
                  rw [clamped] at failed
                  cases failed
                  exact absurd (clampEnds_eq_error clamped) refused
              | ok b =>
                  -- from here on the curve is no longer the one before
                  rw [clamped] at failed
                  exact .inr ⟨b, rfl, rfl, rfl, fitEndWeights_of_failure failed refused⟩

/-- Splitting is refused before the ends are clamped. -/
theorem splitBezier_of_failure [Scalar.Compares α] [Scalar.Reverses α] {unit : Bool}
    {f : Failure α} (failed : (c.splitBezier unit).failure = some f) (refused : f ≠ .undefined) :
    (c.splitBezier unit).curve = c ∧ c.validate = .error f := by
  unfold splitBezier splitSpans at failed ⊢
  cases valid : c.validate with
  | error g =>
      rw [valid] at failed
      cases failed
      exact ⟨rfl, rfl⟩
  | ok _ =>
      rw [valid] at failed
      dsimp only at failed
      cases clamped : c.clampEnds with
      | error g =>
          rw [clamped] at failed
          cases failed
          exact absurd (clampEnds_eq_error clamped) refused
      | ok b =>
          have arranged := (arranged_of_isValid (validate_eq_ok_iff.1 valid)).clampEnds clamped
          rw [clamped, Outcome.ofResult_ok, Outcome.andThen_none] at failed
          -- what stops the insertions stops the edit, and it is no refusal
          cases inserted : (b.insertEach b.missingKnots).failure with
          | none =>
              rw [Outcome.andThen, inserted] at failed
              cases failed
          | some g =>
              rw [Outcome.andThen, inserted] at failed
              dsimp only at failed
              exact absurd (arranged.insertEach_missingKnots failed) refused

end Steps

end Curve

/-! ## §2. All edits. -/

/-- Where an edit of several steps is refused before the first of them. -/
def Edit.RefusedFirst {α : Type} [Scalar α] [Precision α] (c : Curve α) (f : Failure α) :
    Edit α → Prop
  | .reparameterize factor => Scalar.isWeight factor = false
  | .changeEndWeights w0 w1 => checkWeight w0 = .error f ∨ checkWeight w1 = .error f
  | .raiseOrder order => order < c.order ∨ Curve.maxOrder < order ∨ c.validate = .error f
  | .append tail => c.dimension ≠ tail.dimension ∨ c.validate = .error f
      ∨ tail.validate = .error f ∨ Curve.maxOrder < max c.order tail.order
  | .splitBezier _ => c.validate = .error f
  | _ => True

namespace Curve

section Compared

variable {α : Type} [Scalar α] [Precision α] [Analytic α] {c : Curve α}

/-- End weights that are admissible, with a factor that is not: the curve is left clamped and with
weights. -/
def FactorRefused (c : Curve α) (f : Failure α) (edit : Edit α) : Prop :=
  ∃ w0 w1 b, edit = .changeEndWeights w0 w1
    ∧ checkWeight w0 = .ok () ∧ checkWeight w1 = .ok () ∧ c.clampEnds = .ok b
    ∧ (edit.apply c).curve = b.makeRational
    ∧ Scalar.isWeight (b.makeRational.endFactor w0 w1) = false
    ∧ f = .outOfDomain (.reparameterization (b.makeRational.endFactor w0 w1))

/-- An edit that does one thing is refused before it does it. -/
theorem apply_of_failure {edit : Edit α} {result : Except (Failure α) (Curve α)} {f : Failure α}
    (single : edit.apply c = .ofResult c result) (failed : (edit.apply c).failure = some f)
    (first : result = .error f → edit.RefusedFirst c f) :
    (edit.apply c).curve = c ∧ edit.RefusedFirst c f := by
  rw [single] at failed ⊢
  obtain ⟨same, error⟩ := Outcome.of_failure failed
  exact ⟨same, first error⟩

/-- **A failed edit has not begun**, except for end weights whose factor is refused. -/
theorem failure_cases [Scalar.Compares α] [Scalar.Reverses α] {edit : Edit α} {f : Failure α}
    (failed : (edit.apply c).failure = some f) (refused : f ≠ .undefined) :
    (edit.apply c).curve = c ∧ edit.RefusedFirst c f ∨ FactorRefused c f edit := by
  cases edit with
  | changeEndWeights w0 w1 =>
      rcases changeEndWeights_of_failure failed refused with same | ⟨b, stopped⟩
      · exact .inl same
      · exact .inr ⟨w0, w1, b, rfl, stopped⟩
  | splitBezier unit => exact .inl (splitBezier_of_failure failed refused)
  | reparameterize factor =>
      exact .inl (apply_of_failure rfl failed fun e => (reparameterize_eq_error e refused).1)
  | raiseOrder order =>
      exact .inl (apply_of_failure rfl failed fun e => raiseOrder_eq_error e refused)
  | append tail => exact .inl (apply_of_failure rfl failed fun e => append_eq_error e refused)
  | makeRational => cases failed
  | zeroPoints => cases failed
  | invert => cases failed
  | setKnot index value => exact .inl (apply_of_failure rfl failed fun _ => trivial)
  | makeUniform delta clamped => exact .inl (apply_of_failure rfl failed fun _ => trivial)
  | insertKnot value multiplicity => exact .inl (apply_of_failure rfl failed fun _ => trivial)
  | removeKnots index0 index1 => exact .inl (apply_of_failure rfl failed fun _ => trivial)
  | clampEnd side => exact .inl (apply_of_failure rfl failed fun _ => trivial)
  | setDomain t0 t1 => exact .inl (apply_of_failure rfl failed fun _ => trivial)
  | setLocation index point => exact .inl (apply_of_failure rfl failed fun _ => trivial)
  | setHomogeneous index point => exact .inl (apply_of_failure rfl failed fun _ => trivial)
  | setWeight index weight => exact .inl (apply_of_failure rfl failed fun _ => trivial)
  | makeNonRational => exact .inl (apply_of_failure rfl failed fun _ => trivial)

end Compared

variable {K : Type} [Field K] [LinearOrder K] [IsStrictOrderedRing K] [Precision K] [Analytic K]
  {c : Curve K}

omit [Precision K] in
/-- Positive weights have a positive ratio, and so a positive factor. -/
theorem Regular.endFactor_pos (h : c.Regular)
    (powers : ∀ x y : K, 0 < x → 0 < Analytic.pow x y) {w0 w1 : K} (pos0 : 0 < w0)
    (pos1 : 0 < w1) : 0 < c.endFactor w0 w1 := by
  obtain ⟨first, last⟩ := h.toSound.weight_ends_pos h.positive
  unfold endFactor
  exact powers _ _ (div_pos (mul_pos last pos0) (mul_pos first pos1))

/-- **A failed edit leaves the curve as it was**, in all numbers that compare and that negation
turns round, and if it has several steps, none of them has been taken; except for end weights whose
factor is no positive finite number, which leave the curve clamped and with weights.  Where all
numbers are finite and powers of positive numbers are positive, that does not happen to a regular
curve over an ordered field. -/
theorem failed_edit_keeps_curve :
    (∀ (α : Type) [Scalar α] [Scalar.Compares α] [Scalar.Reverses α] [Precision α] [Analytic α]
      (c : Curve α) (edit : Edit α) (f : Failure α),
        (edit.apply c).failure = some f → f ≠ .undefined →
          (edit.apply c).curve = c ∧ edit.RefusedFirst c f ∨ FactorRefused c f edit)
      ∧ (Precision.Exact K → (∀ x y : K, 0 < x → 0 < Analytic.pow x y) →
        ∀ (c : Curve K) (edit : Edit K) (f : Failure K), c.Regular →
          (edit.apply c).failure = some f → f ≠ .undefined → (edit.apply c).curve = c) := by
  refine ⟨fun α _ _ _ _ _ c edit f failed refused => failure_cases failed refused,
    fun exact powers c edit f regular failed refused => ?_⟩
  rcases failure_cases failed refused with ⟨same, -⟩ | ⟨w0, w1, b, rfl, first, second, clamped,
    -, bad, -⟩
  · exact same
  · have factor := (regular.regular_clampEnds clamped).makeRational.endFactor_pos
      powers (checkWeight_eq_ok first) (checkWeight_eq_ok second)
    rw [(Scalar.isWeight_iff _).2 factor] at bad
    cases bad

/-- A rational curve with an unclamped start is not raised beyond the limit. -/
theorem failed_edit_keeps_openStart :
    let edit : Edit ℚ := .raiseOrder 13
    let f : Failure ℚ := .invalidShape (.orderChange 3 13)
    (edit.apply openStart).failure = some f ∧ f ≠ .undefined
      ∧ (edit.apply openStart).curve = openStart ∧ edit.RefusedFirst openStart f := by
  intro edit f
  have failed : (edit.apply openStart).failure = some f := rfl
  have refused : f ≠ .undefined := nofun
  have regular : openStart.Regular := regular_of_isValid (by with_unfolding_all rfl)
  obtain ⟨begins, keeps⟩ := failed_edit_keeps_curve (K := ℚ)
  refine ⟨failed, refused, keeps inferInstance Analytic.pow_pos_rat openStart edit f regular failed
    refused, ?_⟩
  rcases begins ℚ openStart edit f failed refused with ⟨-, first⟩ | ⟨_, _, _, other, -⟩
  · exact first
  · cases show (Edit.raiseOrder 13 : Edit ℚ) = .changeEndWeights _ _ from other

/-- Rational numbers of which those from `2 ^ 10` on count as infinite. -/
@[reducible]
def boundedRange : Precision ℚ where
  epsilon := 1 / 4503599627370496
  isFinite x := decide (|x| < 1024)

/-- A line of which the end weights can be set. -/
def straightEdge : Curve ℚ where
  dimension := 1
  order := 2
  points := .cartesian [[0], [1]]
  knots := ⟨[0, 1]⟩

/-- End weights whose ratio is not finite are refused, and leave the line with weights. -/
theorem straightEdge_changed :
    let edit : Edit ℚ := .changeEndWeights 64 (1 / 64)
    let after := @Edit.apply ℚ _ boundedRange _ straightEdge edit
    @isValid ℚ _ boundedRange straightEdge = true
      ∧ after.failure = some (.outOfDomain (.reparameterization 4096))
      ∧ after.curve ≠ straightEdge := by
  intro edit after
  refine ⟨?_, ?_, ?_⟩
  · with_unfolding_all rfl
  · with_unfolding_all rfl
  · with_unfolding_all decide

end Curve

end RationalSpline
