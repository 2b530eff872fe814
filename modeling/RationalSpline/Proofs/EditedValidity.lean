/-
  RationalSpline.Proofs.EditedValidity
  ────────────────────────────────────
  VALIDITY OF EDITED CURVES.

  An edit keeps a valid curve regular: its knots are counted as equal or not.  The
  validity check counts them in groups within the spacing of the numbers, and no edit
  looks at that spacing, so the edited curve is valid exactly if its groups fit.

  Knots are `Apart` when they are equal or differ by more than the spacing.  Then groups
  are the copies of single knots.  Edits that only repeat knots, or move them further
  away from each other, keep knots apart, and with that the curve valid, for a whole run.
-/
import RationalSpline.Proofs.Runs

namespace RationalSpline

variable {K : Type} [Field K] [LinearOrder K]

/-! ## §1. Knots that are apart. -/

namespace KnotVector

variable [Precision K] {U W : KnotVector K}

/-- Knots that differ, differ by more than the spacing of the numbers. -/
def Apart (U : KnotVector K) : Prop :=
  ∀ a ∈ U.values, ∀ b ∈ U.values, a < b → Precision.epsilon < b - a

theorem Apart.mono (h : W.Apart) (part : ∀ a ∈ U.values, a ∈ W.values) : U.Apart := by
  intro a ha b hb lt
  exact h a (part a ha) b (part b hb) lt

/-- A map that moves no two knots closer together. -/
theorem Apart.map {f : K → K} (h : U.Apart) (mono : ∀ a b, a ≤ b → f a ≤ f b)
    (wide : ∀ a b, a ≤ b → b - a ≤ f b - f a) : (U.map f).Apart := by
  intro x hx y hy lt
  obtain ⟨a, ha, rfl⟩ := List.mem_map.1 hx
  obtain ⟨b, hb, rfl⟩ := List.mem_map.1 hy
  have below : a < b := not_le.1 fun le => absurd lt (not_lt.2 (mono b a le))
  exact (h a ha b hb below).trans_le (wide a b below.le)

variable [IsStrictOrderedRing K]

/-- A further knot that is apart from the others. -/
theorem Apart.insert {u : K} (h : W.Apart)
    (far : ∀ k ∈ W.values, k ≠ u → Precision.epsilon < |k - u|)
    (part : ∀ a ∈ U.values, a ∈ W.values ∨ a = u) : U.Apart := by
  intro a ha b hb lt
  rcases part a ha with old | rfl
  · rcases part b hb with old' | rfl
    · exact h a old b old' lt
    · have := far a old lt.ne
      rwa [abs_sub_comm, abs_of_pos (sub_pos.2 lt)] at this
  · rcases part b hb with old' | rfl
    · have := far b old' lt.ne'
      rwa [abs_of_pos (sub_pos.2 lt)] at this
    · exact absurd lt (lt_irrefl _)

theorem Apart.invert (h : U.Apart) : U.invert.Apart := by
  intro x hx y hy lt
  obtain ⟨a, ha, rfl⟩ := List.mem_map.1 hx
  obtain ⟨b, hb, rfl⟩ := List.mem_map.1 hy
  have := h b (List.mem_reverse.1 hb) a (List.mem_reverse.1 ha) (neg_lt_neg_iff.1 lt)
  linarith

/-- Multiples of a number above the spacing. -/
theorem apart_of_multiples {delta : K} (wide : Precision.epsilon < delta) (pos : 0 < delta)
    (multiples : ∀ k ∈ U.values, ∃ n : ℤ, k = delta * n) : U.Apart := by
  intro a ha b hb lt
  obtain ⟨m, rfl⟩ := multiples a ha
  obtain ⟨n, rfl⟩ := multiples b hb
  have less : (m : K) < n := lt_of_mul_lt_mul_left lt pos.le
  -- different multiples are at least one step apart
  have step : (m : K) + 1 ≤ n := by exact_mod_cast Int.add_one_le_iff.2 (Int.cast_lt.1 less)
  have : delta * 1 ≤ delta * (n - m) := mul_le_mul_of_nonneg_left (by linarith) pos.le
  linarith

end KnotVector

namespace Curve

variable {c e : Curve K}

/-- One knot more than the degree in a row are not all equal, so they spread. -/
theorem Regular.spread_of_apart [Precision K] (h : c.Regular) (apart : c.knots.Apart) :
    c.Spread := by
  intro i hi
  exact apart _ (c.knots.knot_mem (by omega)) _ (c.knots.knot_mem hi) (h.knot_lt hi)

theorem Sound.start_mem (h : c.Sound) : c.domain.1 ∈ c.knots.values := by
  obtain ⟨order, enough, size, degree⟩ := h.counts
  exact c.knots.knot_mem (by omega)

theorem Sound.finish_mem (h : c.Sound) : c.domain.2 ∈ c.knots.values := by
  obtain ⟨order, enough, size, degree⟩ := h.counts
  exact c.knots.knot_mem (by omega)

/-! ## §2. Edits that repeat knots. -/

/-- The knots of `e` are among those of `c`. -/
def Repeats (c e : Curve K) : Prop := ∀ k ∈ e.knots.values, k ∈ c.knots.values

theorem RaisedShape.repeats {target : Nat} (h : c.Regular) (shape : RaisedShape c target e) :
    c.Repeats e := by
  intro k hk
  rw [shape.knots, List.mem_append, List.mem_append] at hk
  rcases hk with (start | inner) | finish
  · rw [List.eq_of_mem_replicate start]
    exact h.start_mem
  · obtain ⟨m, hm, copy⟩ := List.mem_flatMap.1 inner
    rw [List.eq_of_mem_replicate copy]
    exact (List.mem_filter.1 (KnotVector.knot_mem_of_mem_runs hm)).1
  · rw [List.eq_of_mem_replicate finish]
    exact h.finish_mem

variable [IsStrictOrderedRing K]

theorem Regular.repeats_clampEnd (h : c.Regular) {side : CurveEnd} (ok : c.clampEnd side = .ok e) :
    c.Repeats e := by
  cases side with
  | start =>
      obtain ⟨e', ok', -, -, -, values⟩ := h.toSound.clampStart h.domain_lt
      cases ok'.symm.trans ok
      intro k hk
      rw [values, List.mem_append] at hk
      rcases hk with start | old
      · rw [List.eq_of_mem_replicate start]
        exact h.start_mem
      · exact (List.mem_filter.1 old).1
  | finish =>
      obtain ⟨e', ok', -, -, -, values⟩ := h.toSound.clampFinish h.domain_lt
      cases ok'.symm.trans ok
      intro k hk
      rw [values, List.mem_append] at hk
      rcases hk with old | finish
      · exact (List.mem_filter.1 old).1
      · rw [List.eq_of_mem_replicate finish]
        exact h.finish_mem

theorem Regular.repeats_clampEnds (h : c.Regular) (ok : c.clampEnds = .ok e) : c.Repeats e := by
  obtain ⟨b, first, regular, -⟩ := h.clampEnd .start
  unfold Curve.clampEnds at ok
  rw [first] at ok
  replace ok : b.clampEnd .finish = .ok e := ok
  intro k hk
  exact h.repeats_clampEnd first k (regular.repeats_clampEnd ok k hk)

theorem Sound.mem_insertKnot (h : c.Sound) {u : K} {n : Nat} (ok : c.insertKnot u n = .ok e) :
    ∀ k ∈ e.knots.values, k ∈ c.knots.values ∨ k = u := by
  obtain ⟨start, finish, room, rfl⟩ := h.inside_of_insertKnot ok
  obtain ⟨-, -, -, values⟩ := h.insertTimes start.le finish fun _ => room
  intro k hk
  rw [values, List.mem_append, List.mem_append] at hk
  rcases hk with (low | copy) | high
  · exact .inl (List.mem_filter.1 low).1
  · exact .inr (List.eq_of_mem_replicate copy)
  · exact .inl (List.mem_filter.1 high).1

theorem Sound.repeats_insertEach (h : c.Sound) {ms : List (KnotMultiplicity K)}
    (old : ∀ m ∈ ms, m.knot ∈ c.knots.values) : c.Repeats (c.insertEach ms).curve := by
  -- the induction is on what is still to be inserted, against the knots of the first curve
  have run : ∀ (ms : List (KnotMultiplicity K)) (b : Curve K), b.Sound → c.Repeats b →
      (∀ m ∈ ms, m.knot ∈ c.knots.values) → c.Repeats (b.insertEach ms).curve := by
    intro ms
    induction ms with
    | nil => exact fun b _ repeats _ => repeats
    | cons m ms ih =>
        intro b sound repeats old
        unfold Curve.insertEach
        cases ok : b.insertKnot m.knot m.multiplicity with
        | error f => exact repeats
        | ok e =>
            refine ih e (sound.insertKnot ok) ?_ fun x hx => old x (List.mem_cons_of_mem _ hx)
            intro k hk
            rcases sound.mem_insertKnot ok k hk with known | rfl
            · exact repeats k known
            · exact old m List.mem_cons_self
  exact run ms c h (fun _ hk => hk) old

theorem Regular.dimension_clampEnds (h : c.Regular) (ok : c.clampEnds = .ok e) :
    e.dimension = c.dimension := by
  obtain ⟨e', ok', -, keeps, -⟩ := h.clampEnds
  cases ok'.symm.trans ok
  exact keeps.dimension

variable [Precision K] [Precision.Exact K] [Analytic K]

/-- What the clamped curve with its missing knots has, and unit weights keep, the split curve
has. -/
theorem splitBezier_keeps {P : Curve K → Prop} (before : P c)
    (inserted : ∀ b, c.clampEnds = .ok b → P (b.insertEach b.missingKnots).curve)
    (unitEnds : ∀ b : Curve K, P b → P b.unitEnds) (unit : Bool) :
    P (c.splitBezier unit).curve := by
  rcases splitBezier_cases c unit with ⟨f, -, same⟩ | ⟨b, -, ok, ⟨same, -⟩ | ⟨-, same⟩⟩
  · rw [same]
    exact before
  · rw [same]
    exact inserted b ok
  · rw [same]
    cases unit with
    | false => exact inserted b ok
    | true => exact unitEnds _ (inserted b ok)

omit [IsStrictOrderedRing K] [Precision K] [Precision.Exact K] in
/-- Unit weights change control vectors alone. -/
theorem unitEnds_unchanged (b : Curve K) :
    b.unitEnds.knots = b.knots ∧ b.unitEnds.dimension = b.dimension := by
  unfold unitEnds
  split <;> exact ⟨rfl, rfl⟩

theorem Regular.repeats_splitBezier (h : c.Regular) (unit : Bool) :
    c.Repeats (c.splitBezier unit).curve := by
  refine splitBezier_keeps (P := c.Repeats) (fun _ hk => hk) (fun b ok k hk => ?_)
    (fun b repeats k hk => ?_) unit
  · have missing : ∀ m ∈ b.missingKnots, m.knot ∈ b.knots.values := by
      intro m hm
      rw [missingKnots_eq] at hm
      obtain ⟨m', hm', rfl⟩ := List.mem_map.1 hm
      have run := KnotVector.knot_mem_of_mem_runs (List.mem_filter.1 hm').1
      exact (List.mem_filter.1 run).1
    have inserted := (h.regular_clampEnds ok).toSound.repeats_insertEach missing
    exact h.repeats_clampEnds ok k (inserted k hk)
  · rw [(unitEnds_unchanged b).1] at hk
    exact repeats k hk

end Curve

/-! ## §3. Edits that keep knots apart. -/

namespace Edit

variable [Precision K]

/-- An edit that repeats knots, leaves knots out, or moves none closer to another. -/
def KeepsApart (c : Curve K) : Edit K → Prop
  | .insertKnot value _ => ∀ k ∈ c.knots.values, k ≠ value → Precision.epsilon < |k - value|
  | .makeUniform delta _ => Precision.epsilon < delta
  | .setDomain t0 t1 => c.domain.2 - c.domain.1 ≤ t1 - t0
  | .setKnot _ _ | .reparameterize _ | .changeEndWeights _ _ | .append _ => False
  | _ => True

end Edit

namespace Curve

variable [IsStrictOrderedRing K] [Precision K] {c e : Curve K}

theorem apart_makeUniform {delta : K} {clamped : Bool} (wide : Precision.epsilon < delta)
    (ok : c.makeUniform delta clamped = .ok e) : e.knots.Apart := by
  obtain ⟨pos, rfl | rfl⟩ := makeUniform_eq_ok ok
  · refine KnotVector.apart_of_multiples wide pos fun k hk => ?_
    obtain ⟨i, hi, rfl⟩ := KnotVector.exists_knot_of_mem hk
    rw [KnotVector.size_clampedUniform] at hi
    exact ⟨(min (i - (c.order - 2)) (c.pointCount - c.order + 1) : Nat), by
      rw [knot_clampedUniform hi, Int.cast_natCast]⟩
  · refine KnotVector.apart_of_multiples wide pos fun k hk => ?_
    obtain ⟨i, hi, rfl⟩ := KnotVector.exists_knot_of_mem hk
    rw [KnotVector.size_periodicUniform] at hi
    exact ⟨(i : ℤ) - ((c.order - 2 : Nat) : ℤ), by
      rw [knot_periodicUniform hi]
      push_cast
      rfl⟩

/-- A domain that is not shortened. -/
theorem Regular.apart_setDomain (h : c.Regular) {t0 t1 : K} (apart : c.knots.Apart)
    (longer : c.domain.2 - c.domain.1 ≤ t1 - t0) (ok : c.setDomain t0 t1 = .ok e) :
    e.knots.Apart := by
  obtain ⟨lt, rfl | rfl⟩ := setDomain_eq_ok ok h.domain_lt
  · exact apart
  · have length : 0 < c.domain.2 - c.domain.1 := sub_pos.2 h.domain_lt
    have factor : 1 ≤ (t1 - t0) / (c.domain.2 - c.domain.1) := (one_le_div length).2 longer
    have wide : ∀ a b, a ≤ b →
        b - a ≤ affineMap c.domain (t0, t1) b - affineMap c.domain (t0, t1) a := by
      intro a b le
      have scaled : affineMap c.domain (t0, t1) b - affineMap c.domain (t0, t1) a
          = (b - a) * ((t1 - t0) / (c.domain.2 - c.domain.1)) := by
        simp only [affineMap]
        ring
      rw [scaled]
      exact le_mul_of_one_le_right (sub_nonneg.2 le) factor
    refine apart.map (fun a b le => ?_) wide
    have := wide a b le
    linarith

variable [Precision.Exact K] [Analytic K]

/-- **Such edits keep the knots apart.** -/
theorem Regular.apart_apply (h : c.Regular) (apart : c.knots.Apart) {edit : Edit K}
    (keeps : edit.KeepsApart c) : (edit.apply c).curve.knots.Apart := by
  cases edit with
  | setKnot index value => exact keeps.elim
  | makeUniform delta clamped =>
      exact Outcome.curve_ofResult (P := fun e => e.knots.Apart) apart fun e ok =>
        apart_makeUniform keeps ok
  | insertKnot value multiplicity =>
      exact Outcome.curve_ofResult (P := fun e => e.knots.Apart) apart fun e ok =>
        apart.insert keeps (h.mem_insertKnot ok)
  | removeKnots index0 index1 =>
      apply Outcome.curve_ofResult (P := fun e => e.knots.Apart) apart
      intro e ok
      obtain ⟨-, -, -, -, part, -⟩ := removeKnots_spec ok
      exact apart.mono fun k hk => part.subset hk
  | clampEnd side =>
      exact Outcome.curve_ofResult (P := fun e => e.knots.Apart) apart fun e ok =>
        apart.mono (h.repeats_clampEnd ok)
  | setDomain t0 t1 =>
      exact Outcome.curve_ofResult (P := fun e => e.knots.Apart) apart fun e ok =>
        h.apart_setDomain apart keeps ok
  | setLocation index point =>
      exact Outcome.curve_ofResult (P := fun e => e.knots.Apart) apart fun e ok =>
        (repointed_setLocation h.sized ok).1.knots ▸ apart
  | setHomogeneous index point =>
      exact Outcome.curve_ofResult (P := fun e => e.knots.Apart) apart fun e ok =>
        (repointed_setHomogeneous h.sized ok).1.knots ▸ apart
  | setWeight index weight =>
      exact Outcome.curve_ofResult (P := fun e => e.knots.Apart) apart fun e ok =>
        (repointed_setWeight h.sized ok).1.knots ▸ apart
  | makeRational => exact apart
  | makeNonRational =>
      exact Outcome.curve_ofResult (P := fun e => e.knots.Apart) apart fun e ok =>
        (repointed_makeNonRational h.sized ok).1.knots ▸ apart
  | zeroPoints => exact apart
  | reparameterize factor => exact keeps.elim
  | changeEndWeights w0 w1 => exact keeps.elim
  | raiseOrder order =>
      apply Outcome.curve_ofResult (P := fun e => e.knots.Apart) apart
      intro e ok
      rcases raiseOrder_eq_ok ok with ⟨rfl, -⟩ | ⟨-, -, -, shape⟩
      · exact apart
      · exact apart.mono (shape.repeats h)
  | append tail => exact keeps.elim
  | splitBezier unit => exact apart.mono (h.repeats_splitBezier unit)
  | invert => exact apart.invert

/-! ## §4. The number of coordinates. -/

omit [Analytic K] in
theorem Regular.dimension_reparameterize (h : c.Regular) {factor : K}
    (ok : c.reparameterize factor = .ok e) : e.dimension = c.dimension := by
  obtain ⟨-, rfl | ⟨b, clamped, rfl⟩⟩ := reparameterize_eq_ok ok
  · rfl
  · show b.dimension = c.dimension
    exact h.dimension_clampEnds clamped

theorem Regular.dimension_changeEndWeights (h : c.Regular) (w0 w1 : K) :
    (c.changeEndWeights w0 w1).curve.dimension = c.dimension := by
  rcases changeEndWeights_cases c w0 w1 with same
    | ⟨-, b, clamped, same | ⟨factor, m, moved, same⟩⟩
  · rw [same]
  · rw [same]
    show b.dimension = c.dimension
    exact h.dimension_clampEnds clamped
  · rw [same]
    have clamp : b.makeRational.dimension = c.dimension := by
      show b.dimension = c.dimension
      exact h.dimension_clampEnds clamped
    have regular := (h.regular_clampEnds clamped).makeRational
    exact (regular.dimension_reparameterize moved).trans clamp

theorem Regular.dimension_splitBezier (h : c.Regular) (unit : Bool) :
    (c.splitBezier unit).curve.dimension = c.dimension := by
  have step : ∀ {b e : Curve K} {u : K} {n : Nat}, b.Sound ∧ b.dimension = c.dimension →
      b.insertKnot u n = .ok e → e.Sound ∧ e.dimension = c.dimension := by
    intro b e u n before ok
    refine ⟨before.1.insertKnot ok, ?_⟩
    obtain ⟨-, -, -, rfl⟩ := before.1.inside_of_insertKnot ok
    exact before.2
  refine splitBezier_keeps (P := fun e => e.dimension = c.dimension) rfl (fun b ok => ?_)
    (fun b same => ?_) unit
  · exact (insertEach_keeps step b.missingKnots
      ⟨(h.regular_clampEnds ok).toSound, h.dimension_clampEnds ok⟩).2
  · exact (unitEnds_unchanged b).2.trans same

/-- **No edit changes the number of coordinates.** -/
theorem Regular.dimension_apply (h : c.Regular) (edit : Edit K) :
    (edit.apply c).curve.dimension = c.dimension := by
  cases edit with
  | setKnot index value =>
      apply Outcome.curve_ofResult (P := fun e => e.dimension = c.dimension) rfl
      intro e ok
      obtain ⟨_, -, ok⟩ := bind_eq_ok ok
      split at ok
      · cases ok
      · cases ok
        rfl
  | makeUniform delta clamped =>
      apply Outcome.curve_ofResult (P := fun e => e.dimension = c.dimension) rfl
      intro e ok
      obtain ⟨-, rfl | rfl⟩ := makeUniform_eq_ok ok <;> rfl
  | insertKnot value multiplicity =>
      apply Outcome.curve_ofResult (P := fun e => e.dimension = c.dimension) rfl
      intro e ok
      obtain ⟨-, -, -, rfl⟩ := h.inside_of_insertKnot ok
      rfl
  | removeKnots index0 index1 =>
      exact Outcome.curve_ofResult (P := fun e => e.dimension = c.dimension) rfl fun e ok =>
        (removeKnots_spec ok).2.1
  | clampEnd side =>
      apply Outcome.curve_ofResult (P := fun e => e.dimension = c.dimension) rfl
      intro e ok
      obtain ⟨e', ok', -, keeps, -⟩ := h.clampEnd side
      cases ok'.symm.trans ok
      exact keeps.dimension
  | setDomain t0 t1 =>
      apply Outcome.curve_ofResult (P := fun e => e.dimension = c.dimension) rfl
      intro e ok
      obtain ⟨-, rfl | rfl⟩ := setDomain_eq_ok ok h.domain_lt <;> rfl
  | setLocation index point =>
      exact Outcome.curve_ofResult (P := fun e => e.dimension = c.dimension) rfl fun e ok =>
        (repointed_setLocation h.sized ok).1.dimension
  | setHomogeneous index point =>
      exact Outcome.curve_ofResult (P := fun e => e.dimension = c.dimension) rfl fun e ok =>
        (repointed_setHomogeneous h.sized ok).1.dimension
  | setWeight index weight =>
      exact Outcome.curve_ofResult (P := fun e => e.dimension = c.dimension) rfl fun e ok =>
        (repointed_setWeight h.sized ok).1.dimension
  | makeRational => rfl
  | makeNonRational =>
      exact Outcome.curve_ofResult (P := fun e => e.dimension = c.dimension) rfl fun e ok =>
        (repointed_makeNonRational h.sized ok).1.dimension
  | zeroPoints => rfl
  | reparameterize factor =>
      exact Outcome.curve_ofResult (P := fun e => e.dimension = c.dimension) rfl fun e ok =>
        h.dimension_reparameterize ok
  | changeEndWeights w0 w1 => exact h.dimension_changeEndWeights w0 w1
  | raiseOrder order =>
      apply Outcome.curve_ofResult (P := fun e => e.dimension = c.dimension) rfl
      intro e ok
      rcases raiseOrder_eq_ok ok with ⟨rfl, -⟩ | ⟨-, -, -, shape⟩
      · rfl
      · exact shape.dimension
  | append tail =>
      apply Outcome.curve_ofResult (P := fun e => e.dimension = c.dimension) rfl
      intro e ok
      obtain ⟨valid, valid', dimension, within, within'⟩ := append_eq_ok ok
      obtain ⟨r, s, p, q, -, joint, result⟩ := append_eq valid valid' dimension within within'
      cases result.symm.trans ok
      exact joint.shape.dimension
  | splitBezier unit => exact h.dimension_splitBezier unit
  | invert => rfl

/-! ## §5. Validity. -/

/-- With a coordinate more for the weight, the size of a vector still is a count. -/
theorem vectorSize_lt {α : Type} {c : Curve α} (size : c.dimension + 1 < countLimit) :
    c.vectorSize < countLimit := by
  unfold vectorSize
  split <;> omega

/-- **An edited curve is valid exactly if its groups of knots fit.**  A tame edit of a valid
curve, with positive weights where knots are removed, leaves a regular curve; knots that are
apart and that the edit keeps apart leave it valid. -/
theorem isValid_apply_iff (valid : c.isValid = true) (size : c.dimension + 1 < countLimit)
    (powers : ∀ x y : K, 0 < x → 0 < Analytic.pow x y) (edit : Edit K) (tame : edit.Tame c)
    (removes : edit.RemovesRightly c) :
    (edit.apply c).curve.Regular
      ∧ ((edit.apply c).curve.isValid = true ↔ (edit.apply c).curve.Grouped)
      ∧ (c.knots.Apart → edit.KeepsApart c → (edit.apply c).curve.isValid = true) := by
  have before := regular_of_isValid valid
  have regular := before.apply powers edit tame removes
  have size' : (edit.apply c).curve.vectorSize < countLimit := by
    apply vectorSize_lt
    rw [before.dimension_apply edit]
    exact size
  refine ⟨regular, ?_, fun apart keeps => ?_⟩
  · rw [isValid_iff_regular]
    exact ⟨fun parts => parts.2.2, fun grouped => ⟨size', regular, grouped⟩⟩
  · exact regular.isValid size' (regular.spread_of_apart (before.apart_apply apart keeps))

/-- **Every state of a run that keeps knots apart is valid.** -/
theorem isValid_run (valid : c.isValid = true) (size : c.dimension + 1 < countLimit)
    (apart : c.knots.Apart) (powers : ∀ x y : K, 0 < x → 0 < Analytic.pow x y)
    {edits : List (Edit K)} (tame : Edit.Along Edit.Tame c edits)
    (removes : Edit.Along Edit.RemovesRightly c edits)
    (keeps : Edit.Along Edit.KeepsApart c edits) (n : Nat) :
    (Edit.run c (edits.take n)).isValid = true := by
  have run := Edit.run_keeps (P := fun b =>
      b.isValid = true ∧ b.dimension + 1 < countLimit ∧ b.knots.Apart)
    (fun b edit h fits => ?_) ⟨valid, size, apart⟩ ((tame.and removes).and keeps) n
  · exact run.1
  · obtain ⟨valid, size, apart⟩ := h
    have before := regular_of_isValid valid
    obtain ⟨-, -, after⟩ := isValid_apply_iff valid size powers edit fits.1.1 fits.1.2
    refine ⟨after apart fits.2, ?_, before.apart_apply apart fits.2⟩
    rw [before.dimension_apply edit]
    exact size

/-- A knot between two others of a rational curve with an unclamped start. -/
theorem isValid_apply_openStart :
    let edit : Edit ℚ := .insertKnot (3 / 2) 1
    openStart.isValid = true ∧ openStart.dimension + 1 < countLimit
      ∧ (∀ x y : ℚ, 0 < x → 0 < Analytic.pow x y) ∧ edit.Tame openStart
      ∧ edit.RemovesRightly openStart ∧ openStart.knots.Apart ∧ edit.KeepsApart openStart
      ∧ (edit.apply openStart).curve.isValid = true := by
  intro edit
  have valid : openStart.isValid = true := by with_unfolding_all rfl
  have size : openStart.dimension + 1 < countLimit := by decide
  have removes : edit.RemovesRightly openStart := nofun
  have apart : openStart.knots.Apart := by
    unfold KnotVector.Apart
    with_unfolding_all decide
  have keeps : edit.KeepsApart openStart := by
    show ∀ k ∈ openStart.knots.values, k ≠ 3 / 2 → Precision.epsilon < |k - 3 / 2|
    with_unfolding_all decide
  obtain ⟨-, -, after⟩ := isValid_apply_iff valid size Analytic.pow_pos_rat edit trivial removes
  exact ⟨valid, size, Analytic.pow_pos_rat, trivial, removes, apart, keeps, after apart keeps⟩

/-- A polyline on knots that are apart. -/
def bentEdges : Curve ℚ where
  dimension := 1
  order := 2
  points := .cartesian [[0], [1], [0]]
  knots := ⟨[0, 1, 2]⟩

/-- A knot that is inserted within the spacing of the numbers from another makes a group of
two, and so does a domain that is made as short as that. -/
theorem bentEdges_not_isValid :
    bentEdges.isValid = true
      ∧ (∃ e, Edit.apply bentEdges (.insertKnot (1 + 1 / 4503599627370496) 1) = ⟨e, none⟩
        ∧ e.isValid = false)
      ∧ ∃ e, Edit.apply bentEdges (.setDomain 0 (1 / 100000000000000000)) = ⟨e, none⟩
        ∧ e.isValid = false := by
  have inserted : bentEdges.insertKnot (1 + 1 / 4503599627370496) 1
      = .ok ⟨1, 2, .cartesian [[0], [1], [1 - 1 / 4503599627370496], [0]],
          ⟨[0, 1, 1 + 1 / 4503599627370496, 2]⟩⟩ := by
    with_unfolding_all rfl
  have moved : bentEdges.setDomain 0 (1 / 100000000000000000)
      = .ok ⟨1, 2, .cartesian [[0], [1], [0]],
          ⟨[0, 1 / 200000000000000000, 1 / 100000000000000000]⟩⟩ := by
    with_unfolding_all rfl
  refine ⟨?_, ⟨_, congrArg (Outcome.ofResult bentEdges) inserted, ?_⟩,
    _, congrArg (Outcome.ofResult bentEdges) moved, ?_⟩
  · with_unfolding_all rfl
  · with_unfolding_all rfl
  · with_unfolding_all rfl

end Curve

end RationalSpline
