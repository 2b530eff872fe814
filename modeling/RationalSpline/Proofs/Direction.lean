/-
  RationalSpline.Proofs.Direction
  ───────────────────────────────
  EDITING IN THE OPPOSITE DIRECTION.

  The algorithms for insertion, removal and elevation are one-sided: they take the last
  knot of a run and go from left to right.  That they commute with the change of
  direction is not visible in them.  For insertion and elevation it follows from what
  they keep: a curve is determined by its knots and its values, so only the knots have
  to be compared.  Removal does not keep the values.  Its two sweeps change places.

  Elevation keeps the values unless the knots overreach, and a curve may overreach in one
  direction only.  There it does not commute.  Where it overreaches in both directions, a
  line is bent from either side.
-/
import RationalSpline.Proofs.AcceptedInsertions
import RationalSpline.Proofs.Evaluation
import RationalSpline.Proofs.MirroredRemoval
import RationalSpline.Proofs.Validity

namespace RationalSpline

open Spline (straight)

variable {K : Type} [Field K] [LinearOrder K] [IsStrictOrderedRing K]

namespace Curve

variable {c e : Curve K} {t u : K} {m target : Nat}

/-! ## §1. Values. -/

/-- **The form of a span is that of the opposite span of the reversed curve.** -/
theorem Regular.definedVector_invert (h : c.Regular) (h₀ : c.domain.1 ≤ t)
    (h₁ : t ≤ c.domain.2) : c.invert.definedVector (-t) = c.definedVector t := by
  obtain ⟨F, follows⟩ := h.toSound.exists_follows rfl rfl
  obtain ⟨i, hi, hi', on⟩ := h.toSound.exists_onSpan h.domain_lt h₀ h₁
  obtain ⟨t', low, high⟩ := exists_between (KnotVector.knot_lt_of_onSpan on)
  have within := KnotVector.within_of_onSpan on
  have count : c.invert.pointCount = c.pointCount := pointCount_invert c
  -- the parameter may be an end of the opposite span, so its form is read on the closed one
  have start : c.invert.spline.knots.knot (c.pointCount - 1 + c.degree - i)
      = -c.spline.knots.knot (i + 1) := h.toSound.knot_spline_invert (by omega)
  have finish : c.invert.spline.knots.knot (c.pointCount - 1 + c.degree - i + 1)
      = -c.spline.knots.knot i := h.toSound.knot_spline_invert (by omega)
  rw [h.toSound.definedVector_eq rfl rfl follows hi hi' on low high,
      h.invert.definedVector_on c.vectorSize_invert (show c.invert.degree = c.degree from rfl)
        (h.toSound.follows_invert rfl follows)
        (show c.degree ≤ c.pointCount - 1 + c.degree - i by omega) (by omega)
        (start ▸ neg_lt_neg high) (finish ▸ neg_lt_neg low) (start ▸ neg_le_neg within.2)
        (finish ▸ neg_le_neg within.1), PolarForm.neg_apply]
  simp

/-- Read backwards, at the parameters of the reversed curve. -/
theorem Regular.definedVector_reversed (h : c.Regular) (h₀ : c.invert.domain.1 ≤ t)
    (h₁ : t ≤ c.invert.domain.2) : c.domain.1 ≤ -t ∧ -t ≤ c.domain.2
      ∧ c.invert.definedVector t = c.definedVector (-t) := by
  rw [h.domain_invert] at h₀ h₁
  have start : c.domain.1 ≤ -t := le_neg_of_le_neg h₁
  have finish : -t ≤ c.domain.2 := neg_le.1 h₀
  have value := h.definedVector_invert start finish
  rw [neg_neg] at value
  exact ⟨start, finish, value⟩

section Search

variable [Precision K] [Precision.Exact K]

/-- Spans as far from the two ends have one piece. -/
theorem Regular.vectorAt_invert_of_opposite (h : c.Regular)
    (opposite : c.invert.spline.spanAt (-t) + c.spline.spanAt t = c.pointCount - 1 + c.degree) :
    c.invert.vectorAt (-t) = c.vectorAt t := by
  obtain ⟨F, follows⟩ := h.toSound.exists_follows rfl rfl
  obtain ⟨-, hi', span, -⟩ := h.spanAt_spec t
  obtain ⟨t', low, high⟩ := exists_between span
  have start : c.invert.spline.knots.knot (c.invert.spline.spanAt (-t))
      = -c.spline.knots.knot (c.spline.spanAt t + 1) := h.toSound.knot_spline_invert (by omega)
  have finish : c.invert.spline.knots.knot (c.invert.spline.spanAt (-t) + 1)
      = -c.spline.knots.knot (c.spline.spanAt t) := h.toSound.knot_spline_invert (by omega)
  rw [h.vectorAt_eq rfl rfl follows low high,
      h.invert.vectorAt_eq c.vectorSize_invert (show c.invert.degree = c.degree from rfl)
        (h.toSound.follows_invert rfl follows) (start ▸ neg_lt_neg high) (finish ▸ neg_lt_neg low),
      PolarForm.neg_apply]
  simp

/-- **In a domain at least twice as long as the spacing, evaluation does not see the direction**:
the spans that are picked are opposite, or both hold the parameter. -/
theorem Regular.vectorAt_invert (h : c.Regular)
    (wide : 2 * Precision.epsilon ≤ c.domain.2 - c.domain.1) (t : K) :
    c.invert.vectorAt (-t) = c.vectorAt t := by
  obtain ⟨two, enough, size, degree⟩ := h.counts
  have count : c.invert.pointCount = c.pointCount := pointCount_invert c
  have eps : (0 : K) ≤ Precision.epsilon := Precision.Exact.epsilon_nonneg
  obtain ⟨hi, hi', span, pick⟩ := h.spanAt_spec t
  obtain ⟨hj, hj', span', pick'⟩ := h.invert.spanAt_spec (-t)
  rw [h.domain_invert] at pick'
  change if -c.domain.1 - _ < _ then _ else if _ < -c.domain.2 + _ then _ else _ at pick'
  rw [count] at hj' pick'
  have degree' : c.invert.degree = c.degree := rfl
  rw [degree'] at hj pick'
  -- the width lets a parameter be near one end only, which is the other end of the reversed curve
  by_cases late : c.domain.2 - Precision.epsilon < t
  · rw [if_pos late] at pick
    rw [if_neg (by linarith), if_pos (by linarith)] at pick'
    exact h.vectorAt_invert_of_opposite (by omega)
  by_cases early : t < c.domain.1 + Precision.epsilon
  · rw [if_neg late, if_pos early] at pick
    rw [if_pos (by linarith)] at pick'
    exact h.vectorAt_invert_of_opposite (by omega)
  -- away from the ends both spans hold the parameter
  rw [if_neg late, if_neg early] at pick
  rw [if_neg (by linarith), if_neg (by linarith)] at pick'
  obtain ⟨F, follows⟩ := h.toSound.exists_follows rfl rfl
  obtain ⟨G, follows'⟩ := h.invert.toSound.exists_follows rfl rfl
  obtain ⟨s, low, high⟩ := exists_between span
  obtain ⟨s', low', high'⟩ := exists_between span'
  rw [h.vectorAt_eq rfl rfl follows low high, h.invert.vectorAt_eq rfl rfl follows' low' high',
      ← h.definedVector_on rfl rfl follows hi hi' low high pick.1 pick.2,
      ← h.invert.definedVector_on rfl rfl follows' hj (hj'.trans_eq count.symm) low' high' pick'.1
        pick'.2]
  exact h.definedVector_invert (by linarith) (by linarith)

end Search

/-! ## §2. Insertion. -/

/-- An insertion that is accepted is accepted from the other side, and gives the same curve. -/
theorem Regular.insertKnot_invert (h : c.Regular) (ok : c.insertKnot u m = .ok e) :
    c.invert.insertKnot (-u) m = .ok e.invert := by
  obtain ⟨pos, inside, room⟩ := h.toSound.exists_insertKnot_iff.1 ⟨e, ok⟩
  obtain ⟨b, ok'⟩ : ∃ b, c.invert.insertKnot (-u) m = .ok b := by
    refine h.invert.toSound.exists_insertKnot_iff.2 ⟨pos, ?_, ?_⟩
    · rw [h.domain_invert]
      exact ⟨neg_lt_neg inside.2, neg_lt_neg inside.1⟩
    · rw [show c.invert.knots.count (-u) = c.knots.count u from c.knots.count_invert u]
      exact room
  obtain ⟨regular, keeps, perm⟩ := h.insertKnot_spec ok
  obtain ⟨regular', keeps', perm'⟩ := h.invert.insertKnot_spec ok'
  -- both have the knots of the curve and the copies, in whatever order these were added
  have back : b.invert.knots.values.Perm e.knots.values := by
    refine b.knots.invert_perm.trans ((perm'.map Neg.neg).trans (List.Perm.trans ?_ perm.symm))
    rw [List.map_append, List.map_replicate, neg_neg]
    refine List.Perm.append_right _ ((c.knots.invert_perm.map Neg.neg).trans ?_)
    simp
  have equal : b.invert = e := Regular.eq_of_perm h.toSound regular regular'.toSound.invert keeps
    (Keeps.invert h.toSound regular'.toSound keeps') back
  rw [ok', ← equal, invert_invert]

/-- **Insertion commutes with the change of direction.** -/
theorem Regular.insertKnot_invert_iff (h : c.Regular) :
    c.insertKnot u m = .ok e ↔ c.invert.insertKnot (-u) m = .ok e.invert := by
  refine ⟨h.insertKnot_invert, fun ok => ?_⟩
  have back := h.invert.insertKnot_invert ok
  rwa [invert_invert, invert_invert, neg_neg] at back

/-! ## §3. Removal of one knot. -/

section Removal

variable [Precision K] [Precision.Exact K] {i : Nat}

omit [Precision K] [Precision.Exact K] in
/-- A knot inside the domain has a copy, and not more than the degree allows. -/
theorem Regular.count_padded_knot (h : c.Regular) (inner : c.domain.1 < c.knots.knot i)
    (inner' : c.knots.knot i < c.domain.2) (inside : i < c.knotCount) :
    0 < c.spline.knots.count (c.knots.knot i)
      ∧ c.spline.knots.count (c.knots.knot i) ≤ c.degree := by
  rw [h.toSound.count_padded_inside inner inner']
  refine ⟨?_, h.count_le _⟩
  rw [KnotVector.count_eq_list_count, List.count_pos_iff, KnotVector.knot_eq_getElem _ inside]
  exact List.getElem_mem _

omit [Precision K] [Precision.Exact K] in
/-- Wherever it stands in its run, it can be removed. -/
theorem Regular.removeEach_one (h : c.Regular) (inner : c.domain.1 < c.knots.knot i)
    (inner' : c.knots.knot i < c.domain.2) (inside : i < c.knotCount) :
    removeEach c.spline [i] = some (c.spline.remove (c.spline.place (c.knots.knot i))) := by
  obtain ⟨pos, few⟩ := h.count_padded_knot inner inner' inside
  exact (h.toSound.spans inner.le inner').removeEach_singleton (h.toSound.domain_start ▸ inner)
    pos few (KnotVector.knot_padded _ _ inside)

/-- **When the removal of one knot is accepted, and what it gives.** -/
theorem removeKnots_one_iff (valid : c.isValid = true) :
    c.removeKnots i (i + 1) = .ok e ↔
      c.order - 1 ≤ i ∧ i + 1 ≤ c.pointCount - 1
        ∧ (c.domain.1 < c.knots.knot i ∧ c.knots.knot i < c.domain.2)
        ∧ e = c.withSpline (c.spline.remove (c.spline.place (c.knots.knot i))) := by
  have h := regular_of_isValid valid
  have two := h.two_le_order
  have count := h.knotCount_eq
  have single : Spline.downFrom i (i + 1 - i) = [i] := by
    rw [Nat.add_sub_cancel_left]
    rfl
  constructor
  · intro ok
    obtain ⟨-, low, -, high, inner, T, removed, rfl⟩ := removeKnots_eq_ok ok
    obtain ⟨start, finish⟩ := inner i le_rfl (Nat.lt_succ_self i)
    rw [single, h.removeEach_one start finish (by omega)] at removed
    cases removed
    exact ⟨low, high, ⟨start, finish⟩, rfl⟩
  · rintro ⟨low, high, ⟨start, finish⟩, rfl⟩
    -- the tests run over a list that has one knot
    have inside : i < c.knots.values.length := by
      show i < c.knotCount
      omega
    have chosen : (c.knots.values.drop i).take (i + 1 - i) = [c.knots.knot i] := by
      rw [Nat.add_sub_cancel_left, List.drop_eq_getElem_cons inside, List.take_succ_cons,
          KnotVector.knot_eq_getElem _ inside]
      rfl
    have between : ¬[c.knots.knot i].any
        (fun k => decide (k ≤ c.domain.1 ∨ c.domain.2 ≤ k)) = true := by
      simp [start, finish]
    unfold removeKnots
    rw [if_neg (by omega), if_neg (by omega), validate_eq_ok_iff.2 valid]
    dsimp only
    rw [chosen, if_neg between,
        show (List.range (i + 1 - i)).reverse.map (i + ·) = Spline.downFrom i (i + 1 - i) from rfl,
        single, h.removeEach_one start finish inside]

/-- A knot that is removed from a curve is the opposite knot of the reversed one. -/
theorem removeKnots_invert (valid : c.isValid = true) (valid' : c.invert.isValid = true)
    (ok : c.removeKnots i (i + 1) = .ok e) :
    c.invert.removeKnots (c.knotCount - 1 - i) (c.knotCount - 1 - i + 1) = .ok e.invert := by
  have h := regular_of_isValid valid
  have two := h.two_le_order
  have enough := h.order_le
  have count := h.knotCount_eq
  have size : c.knots.size = c.knotCount := rfl
  have points : c.invert.pointCount = c.pointCount := pointCount_invert c
  have order : c.invert.order = c.order := rfl
  obtain ⟨low, high, ⟨start, finish⟩, rfl⟩ := (removeKnots_one_iff valid).1 ok
  have value : c.invert.knots.knot (c.knotCount - 1 - i) = -c.knots.knot i :=
    c.knots.knot_invert_opposite (by omega)
  obtain ⟨pos, few⟩ := h.count_padded_knot start finish (by omega)
  refine (removeKnots_one_iff valid').2 ⟨by omega, by omega, ?_, ?_⟩
  · rw [h.domain_invert, value]
    exact ⟨neg_lt_neg finish, neg_lt_neg start⟩
  · rw [invert_withSpline, value, h.spline_invert,
        (h.toSound.spans start.le finish).remove_mirror (h.toSound.domain_start ▸ start) pos few]

/-- **The removal of one knot commutes with the change of direction.** -/
theorem removeKnots_invert_iff (valid : c.isValid = true) (valid' : c.invert.isValid = true) :
    c.removeKnots i (i + 1) = .ok e ↔
      c.invert.removeKnots (c.knotCount - 1 - i) (c.knotCount - 1 - i + 1) = .ok e.invert := by
  refine ⟨removeKnots_invert valid valid', fun ok => ?_⟩
  have back := removeKnots_invert valid' (c.invert_invert.symm ▸ valid) ok
  -- an accepted index is not behind the knots
  have low := ((removeKnots_one_iff valid').1 ok).1
  have two := (regular_of_isValid valid).two_le_order
  have order : c.invert.order = c.order := rfl
  have count : c.invert.knotCount = c.knotCount := c.knots.size_invert
  rwa [invert_invert, invert_invert, count,
      show c.knotCount - 1 - (c.knotCount - 1 - i) = i by omega] at back

end Removal

/-! ## §4. Elevation. -/

/-- The knots inside the domain, negated and backwards. -/
theorem Sound.interior_invert (h : c.Sound) :
    c.invert.interior = (c.interior.map Neg.neg).reverse := by
  rw [interior, h.domain_invert]
  show (c.knots.values.reverse.map Neg.neg).filter
    (fun k => decide (-c.domain.2 < k ∧ k < -c.domain.1)) = _
  rw [List.map_reverse, List.filter_reverse, List.filter_map, interior]
  refine congrArg (fun values : List K => (values.map Neg.neg).reverse)
    (List.filter_congr fun k _ => ?_)
  simp [Bool.and_comm]

/-- Their runs. -/
theorem Sound.runs_interior_invert (h : c.Sound) :
    KnotVector.runs c.invert.interior
      = ((KnotVector.runs c.interior).map fun m => ⟨-m.knot, m.multiplicity⟩).reverse := by
  rw [h.interior_invert, KnotVector.runs_reverse, KnotVector.runs_map neg_injective]

/-- **The reversed curve is raised to the reversed shape.** -/
theorem RaisedShape.invert (shape : RaisedShape c target e) (h : c.Regular) :
    RaisedShape c.invert target e.invert where
  sound := shape.sound.invert
  order := shape.order
  dimension := shape.dimension
  rational := by
    rw [isRational_invert, isRational_invert, shape.rational]
  domain := by
    rw [shape.sound.domain_invert, h.domain_invert, shape.domain]
  clamped side := by
    obtain ⟨start, finish⟩ := shape.sound.isClamped_invert
    cases side with
    | start => exact start.trans (shape.clamped .finish)
    | finish => exact finish.trans (shape.clamped .start)
  knots := by
    rw [h.domain_invert, h.runs_interior_invert]
    show e.knots.values.reverse.map Neg.neg = _
    rw [shape.knots, ← List.map_reverse, List.flatMap_map]
    simp [List.reverse_flatMap, List.map_flatMap, show c.invert.order = c.order from rfl]
  pointCount := by
    rw [pointCount_invert, pointCount_invert, shape.pointCount, h.spanCount_eq,
        h.invert.spanCount_eq, h.runs_interior_invert, List.length_reverse, List.length_map]
    rfl

/-- In its reversed shape it has the same values. -/
theorem RaisedCurve.invert (raised : RaisedCurve c target e) (h : c.Regular) (he : e.Regular) :
    RaisedCurve c.invert target e.invert where
  toRaisedShape := raised.toRaisedShape.invert h
  value t h₀ h₁ := by
    obtain ⟨start, finish, value⟩ := h.definedVector_reversed h₀ h₁
    have domain : e.invert.domain = c.invert.domain := (raised.toRaisedShape.invert h).domain
    obtain ⟨-, -, value'⟩ := he.definedVector_reversed (domain ▸ h₀) (domain ▸ h₁)
    rw [definedAt_congr (isRational_invert e) value', definedAt_congr (isRational_invert c) value]
    exact raised.value _ start finish

section Elevation

variable [Precision K] [Precision.Exact K]

/-- A curve that is raised is raised from the other side, to the same knots, and to the same curve
where the knots do not overreach in either direction. -/
theorem raiseOrder_invert (valid : c.isValid = true) (valid' : c.invert.isValid = true)
    (ok : c.raiseOrder target = .ok e) :
    ∃ b, c.invert.raiseOrder target = .ok b ∧ b.knots = e.invert.knots
      ∧ (¬c.Overreaches target → ¬c.invert.Overreaches target → b = e.invert) := by
  have h := regular_of_isValid valid
  have h' := regular_of_isValid valid'
  obtain ⟨rfl, rfl⟩ | ⟨-, above, within, shape⟩ := raiseOrder_eq_ok ok
  · -- its own order changes nothing, in either direction
    have within : ¬(e.order < e.order ∨ maxOrder < e.order) := by
      intro outside
      rw [raiseOrder, if_pos outside] at ok
      cases ok
    refine ⟨e.invert, ?_, rfl, fun _ _ => rfl⟩
    show (if e.order < e.order ∨ maxOrder < e.order then _ else if e.order = e.order then _
      else _) = _
    rw [if_neg within, if_pos rfl]
  have above' : c.invert.order < target := above
  obtain ⟨b, prepared⟩ := h'.prepared
  have ok' := prepared.raiseOrder_eq valid' above' within
  have shape' := prepared.raisedShape h' above' fun front =>
    b.degree + (target - c.invert.order) - front.added
  have knots := congrArg KnotVector.mk (shape'.knots.trans (shape.invert h).knots.symm)
  refine ⟨_, ok', knots, fun clear clear' => ?_⟩
  -- both keep the values of the curve, and on equal knots these determine the rest
  obtain ⟨_, raised, -, same⟩ := raiseOrder_of_not_overreaches valid above within clear
  cases raised.symm.trans ok
  obtain ⟨_, raised', -, same'⟩ := raiseOrder_of_not_overreaches valid' above' within clear'
  cases raised'.symm.trans ok'
  have regular := h.raiseOrder clear ok
  refine regular.invert.eq_of_definedVector shape'.sound
    (shape'.dimension.trans (shape.invert h).dimension.symm)
    (shape'.order.trans (shape.invert h).order.symm)
    (shape'.rational.trans (shape.invert h).rational.symm) knots fun t h₀ h₁ => ?_
  have domain : e.invert.domain = c.invert.domain := (shape.invert h).domain
  obtain ⟨-, -, value'⟩ := regular.definedVector_reversed h₀ h₁
  rw [domain] at h₀ h₁
  obtain ⟨start, finish, value⟩ := h.definedVector_reversed h₀ h₁
  rw [same' t h₀ h₁, value, value', same (-t) start finish]

/-- **Elevation commutes with the change of direction**, where neither overreaches. -/
theorem raiseOrder_invert_iff (valid : c.isValid = true) (valid' : c.invert.isValid = true)
    (clear : ¬c.Overreaches target) (clear' : ¬c.invert.Overreaches target) :
    c.raiseOrder target = .ok e ↔ c.invert.raiseOrder target = .ok e.invert := by
  constructor <;> intro ok
  · obtain ⟨b, ok', -, same⟩ := raiseOrder_invert valid valid' ok
    rwa [same clear clear'] at ok'
  · obtain ⟨b, back, -, same⟩ := raiseOrder_invert valid' (c.invert_invert.symm ▸ valid) ok
    rw [invert_invert] at back same
    rwa [same clear' clear, invert_invert] at back

/-- Other control points of a regular curve on valid knots make a valid curve. -/
theorem Alike.isValid_of_regular {c' : Curve K} (alike : Alike c c') (regular : c'.Regular)
    (valid : c.isValid = true) : c'.isValid = true := by
  obtain ⟨size, -, grouped⟩ := isValid_iff_regular.1 valid
  refine isValid_iff_regular.2 ⟨?_, regular, fun m hm => ?_⟩
  · rwa [vectorSize, alike.rational, alike.dimension, ← vectorSize]
  · rw [alike.knots] at hm
    rw [degree, alike.order]
    exact grouped m hm

omit [IsStrictOrderedRing K] [Precision K] [Precision.Exact K] in
theorem Alike.invert {c' : Curve K} (alike : Alike c c') : Alike c.invert c'.invert where
  dimension := alike.dimension
  order := alike.order
  rational := by
    rw [isRational_invert, isRational_invert, alike.rational]
  knots := congrArg KnotVector.invert alike.knots

/-- **On knots that overreach in one direction only, elevation of a line does not commute** with
the change of direction. -/
theorem lineCurve_raiseOrder_invert_ne (valid : c.isValid = true) (valid' : c.invert.isValid = true)
    (bad : c.Overreaches target) (clear : ¬c.invert.Overreaches target) :
    (c.lineCurve 1).invert.isValid = true
      ∧ ¬∃ e, (c.lineCurve 1).raiseOrder target = .ok e
        ∧ (c.lineCurve 1).invert.raiseOrder target = .ok e.invert := by
  have alike := (alike_lineCurve c 1).invert
  have regular := regular_of_isValid (isValid_lineCurve valid 1)
  have line := alike.isValid_of_regular regular.invert valid'
  refine ⟨line, ?_⟩
  rintro ⟨e, ok, ok'⟩
  have clear' : ¬(c.lineCurve 1).invert.Overreaches target := fun bad' =>
    clear ((alike.overreaches_iff target).1 bad')
  -- the reversed line is raised rightly, so the line would be
  obtain ⟨order, rfl, -⟩ := id bad
  have above : (c.lineCurve 1).invert.order < 12 := by
    show c.order < 12
    omega
  obtain ⟨_, raised, right⟩ := raisedCurve_of_not_overreaches line above le_rfl clear'
  cases raised.symm.trans ok'
  have back := right.invert regular.invert (regular.invert.raiseOrder clear' ok')
  rw [invert_invert, invert_invert] at back
  exact not_raisedCurve_lineCurve valid bad ⟨e, ok, back⟩

omit [IsStrictOrderedRing K] [Precision K] [Precision.Exact K] in
/-- From its other end a line goes in the opposite direction. -/
theorem neg_straight_apply {d p : Nat} (inc : Nat) (o v : Fin d → K) (t : K) (s : Multiset K) :
    (straight p inc o v t).neg s = straight p inc o (-v) t s := by
  rw [PolarForm.neg_apply, straight, straight, PolarForm.line_apply, PolarForm.line_apply,
      Multiset.sum_map_neg', mul_neg, neg_smul, smul_neg]

/-- **Where the reversed knots overreach, elevation bends the line from its other end.** -/
theorem not_raisedCurve_lineCurve_invert (valid : c.isValid = true)
    (valid' : (c.lineCurve 1).invert.isValid = true) (bad : c.invert.Overreaches target) :
    ¬∃ b, (c.lineCurve 1).invert.raiseOrder target = .ok b
      ∧ RaisedCurve (c.lineCurve 1).invert target b := by
  have alike := alike_lineCurve c 1
  have sound := (regular_of_isValid (isValid_lineCurve valid 1)).toSound
  have follows := sound.follows_invert (congrArg (· - 1) alike.order) (follows_lineCurve c 1)
  -- the pieces of the reversed line are lines with the opposite direction
  have backwards : Follows (c.lineCurve 1).invert.spline.knots (c.lineCurve 1).invert.points.vectors
      (straight c.degree 1 c.lineOrigin (-c.lineDirection)) :=
    fun i hi hi' t low high j hj hj' => (follows i hi hi' t low high j hj hj').trans
      (congrArg Point.ofVec (neg_straight_apply ..))
  refine not_raisedCurve_of_straight valid' alike.order
    ((isRational_invert _).trans alike.rational)
    ((vectorSize_invert _).trans (vectorSize_lineCurve c 1)) backwards
    (neg_ne_zero.2 (lineDirection_ne_zero (regular_of_isValid valid).dimension_pos)) ?_ ?_
    ((alike.invert.overreaches_iff target).2 bad)
  · rintro _ ⟨a, rfl⟩
    exact ⟨-a, by rw [smul_neg, neg_smul]⟩
  · intro x hx
    rw [vectors_invert] at hx
    exact onLine_lineCurve c 1 x (List.mem_reverse.1 hx)

/-- Whichever direction it is, some curve on the knots is not raised alike. -/
theorem exists_raiseOrder_invert_ne (valid : c.isValid = true) (valid' : c.invert.isValid = true)
    (differ : ¬(c.Overreaches target ↔ c.invert.Overreaches target)) :
    ∃ c', Alike c c' ∧ c'.isValid = true ∧ c'.invert.isValid = true
      ∧ ¬∃ e, c'.raiseOrder target = .ok e ∧ c'.invert.raiseOrder target = .ok e.invert := by
  by_cases bad : c.Overreaches target
  · obtain ⟨line, ne⟩ := lineCurve_raiseOrder_invert_ne valid valid' bad fun bad' =>
      differ (iff_of_true bad bad')
    exact ⟨c.lineCurve 1, alike_lineCurve c 1, isValid_lineCurve valid 1, line, ne⟩
  · have bad' : c.invert.Overreaches target := by
      by_contra clear'
      exact differ (iff_of_false bad clear')
    obtain ⟨line, ne⟩ := lineCurve_raiseOrder_invert_ne valid' (c.invert_invert.symm ▸ valid) bad'
      (c.invert_invert.symm ▸ bad)
    -- the line on the reversed knots, reversed
    have alike := (alike_lineCurve c.invert 1).invert
    rw [invert_invert] at alike
    refine ⟨_, alike, line, ?_, fun ⟨e, ok, ok'⟩ => ne ⟨e.invert, ?_, ?_⟩⟩
    · rw [invert_invert]
      exact isValid_lineCurve valid' 1
    · rwa [invert_invert] at ok'
    · rwa [invert_invert]

/-- Where both directions overreach, neither raises the line to a line. -/
theorem exists_not_raisedCurve (valid : c.isValid = true) (valid' : c.invert.isValid = true)
    (bad : c.Overreaches target) (bad' : c.invert.Overreaches target) :
    ∃ c', Alike c c' ∧ c'.isValid = true ∧ c'.invert.isValid = true
      ∧ (¬∃ e, c'.raiseOrder target = .ok e ∧ RaisedCurve c' target e)
      ∧ ¬∃ b, c'.invert.raiseOrder target = .ok b ∧ RaisedCurve c'.invert target b := by
  have line := isValid_lineCurve valid 1
  have line' := (alike_lineCurve c 1).invert.isValid_of_regular (regular_of_isValid line).invert
    valid'
  exact ⟨c.lineCurve 1, alike_lineCurve c 1, line, line', not_raisedCurve_lineCurve valid bad,
    not_raisedCurve_lineCurve_invert valid line' bad'⟩

end Elevation

/-! ## §5. All edits. -/

section All

variable [Precision K] [Precision.Exact K]

/-- **Editing does not depend on the direction of the curve**, but for elevation on knots that
overreach.  The change of direction undoes itself, turns the domain round and keeps the
values.  Insertion and the removal of one knot commute with it, and so does elevation where
the knots overreach in neither direction.  The raised knots agree on all knots.  Where the
knots overreach in one direction only, the control points of some curve do not.  Where they
overreach in both, the control points of some curve are wrong from either side. -/
theorem edit_invert (valid : c.isValid = true) (valid' : c.invert.isValid = true) :
    c.invert.invert = c
      ∧ c.invert.domain = (-c.domain.2, -c.domain.1)
      ∧ (∀ t, c.domain.1 ≤ t → t ≤ c.domain.2 → c.invert.definedAt (-t) = c.definedAt t)
      ∧ (2 * Precision.epsilon ≤ c.domain.2 - c.domain.1 →
          ∀ t, c.invert.pointAt? (-t) = c.pointAt? t)
      ∧ (∀ u m e, c.insertKnot u m = .ok e ↔ c.invert.insertKnot (-u) m = .ok e.invert)
      ∧ (∀ i e, c.removeKnots i (i + 1) = .ok e ↔
          c.invert.removeKnots (c.knotCount - 1 - i) (c.knotCount - 1 - i + 1) = .ok e.invert)
      ∧ ∀ target,
          (∀ e, c.raiseOrder target = .ok e →
            ∃ b, c.invert.raiseOrder target = .ok b ∧ b.knots = e.invert.knots)
          ∧ (¬c.Overreaches target → ¬c.invert.Overreaches target →
            ∀ e, c.raiseOrder target = .ok e ↔ c.invert.raiseOrder target = .ok e.invert)
          ∧ (¬(c.Overreaches target ↔ c.invert.Overreaches target) →
            ∃ c', Alike c c' ∧ c'.isValid = true ∧ c'.invert.isValid = true
              ∧ ¬∃ e, c'.raiseOrder target = .ok e
                ∧ c'.invert.raiseOrder target = .ok e.invert)
          ∧ (c.Overreaches target → c.invert.Overreaches target →
            ∃ c', Alike c c' ∧ c'.isValid = true ∧ c'.invert.isValid = true
              ∧ (¬∃ e, c'.raiseOrder target = .ok e ∧ RaisedCurve c' target e)
              ∧ ¬∃ b, c'.invert.raiseOrder target = .ok b
                ∧ RaisedCurve c'.invert target b) := by
  have h := regular_of_isValid valid
  have h' := regular_of_isValid valid'
  refine ⟨c.invert_invert, h.domain_invert, fun t h₀ h₁ => ?_, fun wide t => ?_,
    fun u m e => h.insertKnot_invert_iff, fun i e => removeKnots_invert_iff valid valid',
    fun target => ⟨fun e ok => ?_, fun clear clear' e => ?_, fun differ => ?_, fun bad bad' => ?_⟩⟩
  · exact definedAt_congr (isRational_invert c) (h.definedVector_invert h₀ h₁)
  · rw [h.pointAt?_eq, h'.pointAt?_eq, pointAt, pointAt, isRational_invert, h.vectorAt_invert wide]
  · obtain ⟨b, ok', knots, -⟩ := raiseOrder_invert valid valid' ok
    exact ⟨b, ok', knots⟩
  · exact raiseOrder_invert_iff valid valid' clear clear'
  · exact exists_raiseOrder_invert_ne valid valid' differ
  · exact exists_not_raisedCurve valid valid' bad bad'

end All

/-- A rational curve with an unclamped start, from either side. -/
theorem edit_invert_openStart :
    openStart.isValid = true ∧ openStart.invert.isValid = true
      ∧ openStart.invert.pointAt? (-2) = openStart.pointAt? 2
      ∧ (∃ e, openStart.insertKnot (3 / 2) 2 = .ok e
        ∧ openStart.invert.insertKnot (-(3 / 2)) 2 = .ok e.invert)
      ∧ (∃ e, openStart.removeKnots 2 3 = .ok e ∧ openStart.invert.removeKnots 2 3 = .ok e.invert)
      ∧ ∃ e, openStart.raiseOrder 5 = .ok e ∧ openStart.invert.raiseOrder 5 = .ok e.invert := by
  have valid : openStart.isValid = true := by decide +kernel
  have valid' : openStart.invert.isValid = true := by decide +kernel
  have wide : 2 * Precision.epsilon ≤ openStart.domain.2 - openStart.domain.1 := by decide +kernel
  have clear : ¬openStart.Overreaches 5 := fun bad => absurd bad.1 (by decide)
  have clear' : ¬openStart.invert.Overreaches 5 := fun bad => absurd bad.1 (by decide)
  obtain ⟨e, inserted⟩ : ∃ e, openStart.insertKnot (3 / 2) 2 = .ok e :=
    (regular_of_isValid valid).toSound.exists_insertKnot_iff.2 (by decide +kernel)
  have removed := (removeKnots_one_iff (i := 2) valid).2
    ⟨by decide, by decide +kernel, by decide +kernel, rfl⟩
  obtain ⟨b, raised, -⟩ := raiseOrder_of_not_overreaches valid (show openStart.order < 5 by decide)
    (show 5 ≤ maxOrder by decide) clear
  obtain ⟨-, -, -, point, insert, remove, raise⟩ := edit_invert valid valid'
  exact ⟨valid, valid', point wide 2, ⟨e, inserted, (insert _ _ _).1 inserted⟩,
    ⟨_, removed, (remove _ _).1 removed⟩, b, raised, ((raise 5).2.1 clear clear' b).1 raised⟩

/-- Raised in the other direction, the line `11 t` stays straight. -/
theorem steadyLine_raiseOrder_invert_ne :
    steadyLine.isValid = true ∧ steadyLine.invert.isValid = true
      ∧ ¬∃ e, steadyLine.raiseOrder 12 = .ok e
        ∧ steadyLine.invert.raiseOrder 12 = .ok e.invert := by
  have valid : steadyLine.isValid = true := by decide +kernel
  have valid' : steadyLine.invert.isValid = true := by decide +kernel
  have line : steadyLine.lineCurve 1 = steadyLine := by decide +kernel
  have bad : steadyLine.Overreaches 12 := ⟨rfl, rfl, 1, 2, by decide +kernel⟩
  have clear : ¬steadyLine.invert.Overreaches 12 := by
    rintro ⟨-, -, x, y, pair⟩
    have runs : KnotVector.runs steadyLine.invert.interior = [⟨-2, 3⟩, ⟨-1, 1⟩] := by decide +kernel
    rw [runs] at pair
    have first := pair.eq_of_length rfl
    cases first
  obtain ⟨-, ne⟩ := lineCurve_raiseOrder_invert_ne valid valid' bad clear
  rw [line] at ne
  exact ⟨valid, valid', ne⟩

/-- The line `11 t` on `[0, 4]`, with a triple knot between two single ones. -/
def levelLine : Curve ℚ where
  dimension := 1
  order := 11
  points := .cartesian [[0], [11 / 10], [33 / 10], [55 / 10], [77 / 10], [11], [154 / 10],
    [198 / 10], [242 / 10], [286 / 10], [33], [363 / 10], [385 / 10], [407 / 10], [429 / 10], [44]]
  knots := ⟨[0, 0, 0, 0, 0, 0, 0, 0, 0, 0, 1, 2, 2, 2, 3, 4, 4, 4, 4, 4, 4, 4, 4, 4, 4]⟩

omit [IsStrictOrderedRing K] in
/-- The shares without the memory that the coefficients are looked up in. -/
theorem share_eq_choose (p inc : Nat) :
    (Spline.share p inc : Nat → Nat → K) = fun i j =>
      if 2 * i ≤ p + inc then
        1 / ((p + inc).choose i : K) * (p.choose j : K) * (inc.choose (i - j) : K)
      else
        1 / ((p + inc).choose (p + inc - i) : K) * (p.choose (p - j) : K)
          * (inc.choose (p + inc - i - (p - j)) : K) := by
  funext i j
  simp only [Spline.share, Spline.shareBelow, binomial_eq]

/-- It overreaches in both directions, and bends at one side of the triple knot or at the other. -/
theorem levelLine_raiseOrder_invert_ne :
    levelLine.isValid = true ∧ levelLine.invert.isValid = true
      ∧ levelLine.Overreaches 12 ∧ levelLine.invert.Overreaches 12
      ∧ ¬∃ e, levelLine.raiseOrder 12 = .ok e
        ∧ levelLine.invert.raiseOrder 12 = .ok e.invert := by
  refine ⟨by decide +kernel, by decide +kernel, ⟨rfl, rfl, 1, 2, by decide +kernel⟩,
    ⟨rfl, rfl, -3, -2, by decide +kernel⟩, fun ⟨e, ok, ok'⟩ => ?_⟩
  have ne : (levelLine.raiseOrder 12).toOption.map invert
      ≠ (levelLine.invert.raiseOrder 12).toOption := by
    simp only [raiseOrder, Spline.elevate, Spline.raisedPoints, Spline.shareRows, share_eq_choose]
    decide +kernel
  rw [ok, ok'] at ne
  exact ne rfl

end Curve

end RationalSpline
