/-
  RationalSpline.Proofs.Runs
  ──────────────────────────
  RUNS OF EDITS.

  One step keeps a curve sound, whether it succeeds or not, as long as the edits that
  move to the ends of the domain find one: setting single knots can make both ends the
  same number.  Clamping such a curve drops control points that a span needs, and what
  is left reads its domain backwards.
-/
import RationalSpline.Proofs.Construction
import RationalSpline.Proofs.Joining
import RationalSpline.Proofs.Removal
import RationalSpline.Proofs.Splitting

namespace RationalSpline

variable {K : Type} [Field K] [LinearOrder K] [Precision K] [Analytic K] {c : Curve K}

/-! ## §1. Edits of the domain. -/

namespace Edit

/-- The edits that repeat the ends of the domain or scale it. -/
def usesDomain {α : Type} : Edit α → Bool
  | .clampEnd _ | .setDomain _ _ | .reparameterize _ | .changeEndWeights _ _ => true
  | _ => false

/-- A run in which each edit fits the curve that it is applied to. -/
def Along (Fits : Curve K → Edit K → Prop) (c : Curve K) : List (Edit K) → Prop
  | [] => True
  | edit :: rest => Fits c edit ∧ Along Fits (edit.apply c).curve rest

/-- What every step keeps, every state of a run has. -/
theorem run_keeps {P : Curve K → Prop} {Fits : Curve K → Edit K → Prop}
    (step : ∀ c edit, P c → Fits c edit → P (edit.apply c).curve) {edits : List (Edit K)}
    (h : P c) (fits : Along Fits c edits) (n : Nat) : P (Edit.run c (edits.take n)) := by
  induction edits generalizing c n with
  | nil => simpa [Edit.run] using h
  | cons edit rest ih =>
      cases n with
      | zero => exact h
      | succ n => exact ih (step c edit h fits.1) fits.2 n

/-- An edit of the domain finds one that is not empty. -/
def FindsDomain (c : Curve K) (edit : Edit K) : Prop :=
  edit.usesDomain = true → c.domain.1 < c.domain.2

end Edit

/-! ## §2. Soundness. -/

namespace Curve

/-- What an edit leaves behind: the result, or the curve before. -/
theorem Outcome.curve_ofResult {α : Type} {P : Curve α → Prop} {c : Curve α}
    {result : Except (Failure α) (Curve α)} (before : P c) (after : ∀ e, result = .ok e → P e) :
    P (Outcome.ofResult c result).curve := by
  cases result with
  | ok e => exact after e rfl
  | error e => exact before

variable [IsStrictOrderedRing K] [Precision.Exact K]

/-- **Every edit keeps a curve sound.** -/
theorem Sound.apply (h : c.Sound) (edit : Edit K)
    (domain : Edit.FindsDomain c edit) :
    (edit.apply c).curve.Sound := by
  cases edit with
  | setKnot index value => exact Outcome.curve_ofResult h fun e ok => h.setKnot ok
  | makeUniform delta clamped => exact Outcome.curve_ofResult h fun e ok => h.makeUniform ok
  | insertKnot value multiplicity => exact Outcome.curve_ofResult h fun e ok => h.insertKnot ok
  | removeKnots index0 index1 =>
      exact Outcome.curve_ofResult h fun e ok => (removeKnots_spec ok).1
  | clampEnd side =>
      refine Outcome.curve_ofResult h fun e ok => ?_
      cases side with
      | start =>
          obtain ⟨e', ok', sound, -⟩ := h.clampStart (domain rfl)
          cases ok'.symm.trans ok
          exact sound
      | finish =>
          obtain ⟨e', ok', sound, -⟩ := h.clampFinish (domain rfl)
          cases ok'.symm.trans ok
          exact sound
  | setDomain t0 t1 => exact Outcome.curve_ofResult h fun e ok => h.setDomain (domain rfl) ok
  | setLocation index point =>
      exact Outcome.curve_ofResult h fun e ok => (repointed_setLocation h.sized ok).1.sound h
  | setHomogeneous index point =>
      exact Outcome.curve_ofResult h fun e ok => (repointed_setHomogeneous h.sized ok).1.sound h
  | setWeight index weight =>
      exact Outcome.curve_ofResult h fun e ok => (repointed_setWeight h.sized ok).1.sound h
  | makeRational => exact h.makeRational
  | makeNonRational =>
      exact Outcome.curve_ofResult h fun e ok => (repointed_makeNonRational h.sized ok).1.sound h
  | zeroPoints => exact (repointed_zeroPoints c).1.sound h
  | reparameterize factor =>
      exact Outcome.curve_ofResult h fun e ok => h.reparameterize (domain rfl) ok
  | changeEndWeights w0 w1 => exact h.changeEndWeights (domain rfl) w0 w1
  | raiseOrder order => exact Outcome.curve_ofResult h fun e ok => h.raiseOrder ok
  | append tail => exact Outcome.curve_ofResult h fun e ok => sound_append ok
  | splitBezier unit => exact h.splitBezier unit
  | invert => exact h.invert

/-- **Every state of a run is sound**: from any constructor on, after each edit, whether it
succeeds or fails, the counts fit, the knots are in order and the vectors have their
coordinates, as long as the edits of the domain find one that is not empty. -/
theorem sound_run (start : Constructed c) (edits : List (Edit K))
    (domain : Edit.Along Edit.FindsDomain c edits) (n : Nat) :
    (Edit.run c (edits.take n)).Sound :=
  Edit.run_keeps (fun _ edit h fits => h.apply edit fits) start.regular.toSound domain n

/-- A cubic curve on one span. -/
def oneSpan : Curve ℚ where
  dimension := 1
  order := 4
  points := .cartesian [[0], [1], [2], [3]]
  knots := ⟨[0, 0, 0, 1, 1, 1]⟩

theorem constructed_oneSpan : Constructed oneSpan := by
  have ok : Curve.clampedUniform 1 4 [[0], [1], [2], [3]] (1 : ℚ) = .ok oneSpan := by
    with_unfolding_all rfl
  exact .checked (.clampedUniform ok)

/-- A run that opens an end of its domain, fails to insert a knot there, and clamps it again. -/
theorem sound_run_oneSpan :
    let edits : List (Edit ℚ) :=
      [.setKnot 0 (-1), .insertKnot 0 1, .clampEnd .start, .setDomain 0 2, .invert]
    Constructed oneSpan ∧ Edit.Along Edit.FindsDomain oneSpan edits
      ∧ ∀ n, (Edit.run oneSpan (edits.take n)).Sound := by
  intro edits
  have domain : Edit.Along Edit.FindsDomain oneSpan edits := by
    refine ⟨nofun, nofun, fun _ => ?_, fun _ => ?_, nofun, trivial⟩
    · with_unfolding_all decide
    · with_unfolding_all decide
  exact ⟨constructed_oneSpan, domain, sound_run constructed_oneSpan edits domain⟩

/-- Once a knot is set to the end of the domain, clamping its start leaves less control points
than the order wants, and the domain can be made to run backwards. -/
theorem oneSpan_run_not_sound :
    let edits : List (Edit ℚ) := [.setKnot 2 1, .clampEnd .start]
    let further : List (Edit ℚ) := [.setKnot 3 2, .setKnot 2 2, .setDomain 0 1]
    Constructed oneSpan
      ∧ (Edit.run oneSpan edits).pointCount < (Edit.run oneSpan edits).order
      ∧ ¬(Edit.run oneSpan (edits ++ further)).knots.Ordered := by
  intro edits further
  refine ⟨constructed_oneSpan, by with_unfolding_all decide, ?_⟩
  have knots : (Edit.run oneSpan (edits ++ further)).knots = ⟨[1, 1, 0, 0]⟩ := by
    with_unfolding_all rfl
  rw [knots]
  intro ordered
  exact absurd (List.rel_of_pairwise_cons ordered.of_cons List.mem_cons_self) (by decide)

end Curve

/-! ## §3. Weights. -/

namespace Edit

/-- What is asked of an edit besides the weights that a removal gives: a knot that is set leaves
the curve valid, and no order is raised on knots that overreach. -/
def Tame (c : Curve K) : Edit K → Prop
  | .setKnot index value => ∀ e, c.setKnot index value = .ok e → e.isValid = true
  | .raiseOrder order => ¬c.Overreaches order
  | .append tail => ¬c.Overreaches (max c.order tail.order)
      ∧ ¬tail.Overreaches (max c.order tail.order)
  | _ => True

/-- A removal gives positive weights. -/
def RemovesRightly (c : Curve K) (edit : Edit K) : Prop :=
  ∀ index0 index1 e, edit = .removeKnots index0 index1 → c.removeKnots index0 index1 = .ok e →
    e.points.Positive

theorem Along.and {P Q : Curve K → Edit K → Prop} {edits : List (Edit K)} (hP : Along P c edits)
    (hQ : Along Q c edits) : Along (fun c edit => P c edit ∧ Q c edit) c edits := by
  induction edits generalizing c with
  | nil => trivial
  | cons edit rest ih => exact ⟨⟨hP.1, hQ.1⟩, ih hP.2 hQ.2⟩

/-- Where every state has a property, so have the results of all edits. -/
theorem along_of_run {P : Curve K → Prop} {Fits : Curve K → Edit K → Prop}
    (fits : ∀ c edit, P (edit.apply c).curve → Fits c edit) {edits : List (Edit K)}
    (h : ∀ n, P (Edit.run c (edits.take n))) : Along Fits c edits := by
  induction edits generalizing c with
  | nil => trivial
  | cons edit rest ih =>
      refine ⟨fits c edit (h 1), ih fun n => ?_⟩
      exact h (n + 1)

end Edit

namespace Curve

variable [IsStrictOrderedRing K] [Precision.Exact K]

/-- **Tame edits keep a curve regular**, if removals give positive weights and powers of positive
numbers are positive. -/
theorem Regular.apply (h : c.Regular) (powers : ∀ x y : K, 0 < x → 0 < Analytic.pow x y)
    (edit : Edit K) (tame : edit.Tame c) (removes : edit.RemovesRightly c) :
    (edit.apply c).curve.Regular := by
  cases edit with
  | setKnot index value =>
      exact Outcome.curve_ofResult h fun e ok => regular_of_isValid (tame e ok)
  | makeUniform delta clamped => exact Outcome.curve_ofResult h fun e ok => h.makeUniform ok
  | insertKnot value multiplicity => exact Outcome.curve_ofResult h fun e ok => h.insertKnot ok
  | removeKnots index0 index1 =>
      exact Outcome.curve_ofResult h fun e ok => h.removeKnots ok (removes _ _ e rfl ok)
  | clampEnd side =>
      apply Outcome.curve_ofResult h
      intro e ok
      obtain ⟨e', ok', regular, -⟩ := h.clampEnd side
      cases ok'.symm.trans ok
      exact regular
  | setDomain t0 t1 => exact Outcome.curve_ofResult h fun e ok => h.setDomain ok
  | setLocation index point =>
      apply Outcome.curve_ofResult h
      intro e ok
      obtain ⟨repointed, positive⟩ := repointed_setLocation h.sized ok
      exact repointed.regular h (positive h.positive)
  | setHomogeneous index point =>
      apply Outcome.curve_ofResult h
      intro e ok
      obtain ⟨repointed, positive⟩ := repointed_setHomogeneous h.sized ok
      exact repointed.regular h (positive h.positive)
  | setWeight index weight =>
      apply Outcome.curve_ofResult h
      intro e ok
      obtain ⟨repointed, positive⟩ := repointed_setWeight h.sized ok
      exact repointed.regular h (positive h.positive)
  | makeRational => exact h.makeRational
  | makeNonRational =>
      apply Outcome.curve_ofResult h
      intro e ok
      obtain ⟨repointed, positive⟩ := repointed_makeNonRational h.sized ok
      exact repointed.regular h (positive h.positive)
  | zeroPoints => exact (repointed_zeroPoints c).1.regular h (repointed_zeroPoints c).2
  | reparameterize factor => exact Outcome.curve_ofResult h fun e ok => h.reparameterize ok
  | changeEndWeights w0 w1 => exact h.changeEndWeights w0 w1
  | raiseOrder order => exact Outcome.curve_ofResult h fun e ok => h.raiseOrder tame ok
  | append tail => exact Outcome.curve_ofResult h fun e ok => regular_append tame.1 tame.2 ok
  | splitBezier unit => exact h.splitBezier fun _ => powers
  | invert => exact h.invert

/-- **Every state of a tame run from a valid curve is regular**, if removals give positive
weights. -/
theorem regular_run (valid : c.isValid = true) (powers : ∀ x y : K, 0 < x → 0 < Analytic.pow x y)
    {edits : List (Edit K)} (tame : Edit.Along Edit.Tame c edits)
    (removes : Edit.Along Edit.RemovesRightly c edits) (n : Nat) :
    (Edit.run c (edits.take n)).Regular :=
  Edit.run_keeps (fun _ edit h fits => h.apply powers edit fits.1 fits.2)
    (regular_of_isValid valid) (tame.and removes) n

/-- **Weights stay positive in every step of a tame run from a valid curve, exactly if they do
where knots are removed.** -/
theorem weights_pos_run_iff (valid : c.isValid = true)
    (powers : ∀ x y : K, 0 < x → 0 < Analytic.pow x y) {edits : List (Edit K)}
    (tame : Edit.Along Edit.Tame c edits) :
    (∀ n, ∀ w ∈ (Edit.run c (edits.take n)).points.weights, 0 < w)
      ↔ Edit.Along Edit.RemovesRightly c edits := by
  constructor
  · intro weights
    refine Edit.along_of_run (P := fun c => ∀ w ∈ c.points.weights, 0 < w)
      (fun c edit pos => ?_) weights
    rintro index0 index1 e rfl ok
    apply ControlPoints.forall_weights_pos_iff.1
    -- the state after a removal that succeeds is what the removal gives
    have after : (Edit.apply c (.removeKnots index0 index1)).curve = e := by
      show (Outcome.ofResult c (c.removeKnots index0 index1)).curve = e
      rw [ok]
      rfl
    rwa [after] at pos
  · intro removes n
    exact (regular_run valid powers tame removes n).weight_pos

/-- A knot is inserted into a rational curve and removed, and the curve is split. -/
theorem weights_pos_run_openStart :
    let edits : List (Edit ℚ) := [.insertKnot (5 / 2) 1, .removeKnots 3 4, .splitBezier true]
    openStart.isValid = true ∧ (∀ x y : ℚ, 0 < x → 0 < Analytic.pow x y)
      ∧ Edit.Along Edit.Tame openStart edits
      ∧ ∀ n, ∀ w ∈ (Edit.run openStart (edits.take n)).points.weights, 0 < w := by
  intro edits
  have valid : openStart.isValid = true := by with_unfolding_all rfl
  have tame : Edit.Along Edit.Tame openStart edits := ⟨trivial, trivial, trivial, trivial⟩
  -- the removal gives back the curve before the insertion
  have removed : (Edit.apply openStart (.insertKnot (5 / 2) 1)).curve.removeKnots 3 4
      = .ok openStart := by with_unfolding_all rfl
  have removes : Edit.Along Edit.RemovesRightly openStart edits := by
    refine ⟨nofun, ?_, nofun, trivial⟩
    rintro index0 index1 e ⟨⟩ ok
    cases removed.symm.trans ok
    exact (regular_of_isValid valid).positive
  exact ⟨valid, Analytic.pow_pos_rat, tame,
    (weights_pos_run_iff valid Analytic.pow_pos_rat tame).2 removes⟩

/-- A rational curve whose weights are high at the ends. -/
def highEnds : Curve ℚ where
  dimension := 1
  order := 3
  points := .homogeneous [[0, 3], [0, 1], [0, 1], [0, 3]]
  knots := ⟨[0, 0, 1, 2, 2]⟩

/-- Without its interior knot, the curve has a negative weight between them. -/
theorem highEnds_weight_neg :
    highEnds.isValid = true ∧ Edit.Along Edit.Tame highEnds [.removeKnots 2 3]
      ∧ (Edit.apply highEnds (.removeKnots 2 3)).failure.isNone = true
      ∧ (-1) ∈ (Edit.run highEnds [.removeKnots 2 3]).points.weights := by
  refine ⟨?_, ⟨trivial, trivial⟩, ?_, ?_⟩
  · with_unfolding_all rfl
  · with_unfolding_all rfl
  · with_unfolding_all decide

end Curve

end RationalSpline
