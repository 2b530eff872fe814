/-
  RationalSpline.Proofs.Clamping
  ──────────────────────────────
  CLAMPING KEEPS THE CURVE.

  Clamping the start inserts the first parameter up to full multiplicity and drops the
  knots and control points before it; what remains follows the same forms.  Clamping
  the end is the same on the reversed curve, whose forms have their arguments negated.
  So both ends of a curve with a domain can always be clamped, and the knots afterwards
  are the two ends of the domain at full multiplicity around the knots between them.
-/
import RationalSpline.Proofs.Insertion
import RationalSpline.Proofs.Reversal

namespace RationalSpline

variable {K : Type} [Field K] [LinearOrder K]

namespace Curve

/-! ## §1. The start. -/

/-- The curve without its first knots and control points. -/
def dropStart {α : Type} (c : Curve α) (a : Nat) : Curve α :=
  { c with
    points := c.points.withVectors (c.points.vectors.drop a)
    knots := ⟨c.knots.values.drop a⟩ }

theorem knot_dropStart {α : Type} [Scalar α] (c : Curve α) (a i : Nat) :
    (c.dropStart a).knots.knot i = c.knots.knot (i + a) := by
  simp only [dropStart, KnotVector.knot, List.getD_eq_getElem?_getD, List.getElem?_drop,
    Nat.add_comm a i]

theorem pointCount_dropStart {α : Type} (c : Curve α) (a : Nat) :
    (c.dropStart a).pointCount = c.pointCount - a := by
  simp [dropStart, pointCount, ControlPoints.length]

theorem knotCount_dropStart {α : Type} (c : Curve α) (a : Nat) :
    (c.dropStart a).knotCount = c.knotCount - a := by
  simp [dropStart, knotCount, KnotVector.size]

theorem Sound.dropStart {c : Curve K} (h : c.Sound) {a : Nat}
    (enough : c.order + a ≤ c.pointCount) : (c.dropStart a).Sound where
  two_le_order := h.two_le_order
  order_le := by
    rw [pointCount_dropStart]
    show c.order ≤ _
    omega
  knotCount_eq := by
    have count := h.knotCount_eq
    rw [pointCount_dropStart, knotCount_dropStart, count]
    show _ = c.pointCount - a + c.order - 2
    omega
  ordered := h.ordered.sublist (List.drop_sublist _ _)
  sized := by
    have size : (c.dropStart a).vectorSize = c.vectorSize := by
      simp only [vectorSize, isRational, Curve.dropStart, ControlPoints.isRational_withVectors]
      rfl
    rw [size]
    show ∀ x ∈ (c.points.withVectors _).vectors, _
    rw [ControlPoints.vectors_withVectors]
    exact fun x hx => h.sized x (List.mem_of_mem_drop hx)

/-- What acts only before the domain can be dropped. -/
theorem Sound.keeps_dropStart {c : Curve K} (h : c.Sound) {a : Nat}
    (enough : c.order + a ≤ c.pointCount)
    (start : c.knots.knot (c.order - 2 + a) = c.domain.1) : Keeps c (c.dropStart a) where
  dimension := rfl
  order := rfl
  rational := ControlPoints.isRational_withVectors _ _
  domain := by
    obtain ⟨two, -, size, -⟩ := h.counts
    have size' : (c.dropStart a).knots.size = c.knots.size - a := knotCount_dropStart c a
    refine Prod.ext ?_ ?_
    · show (c.dropStart a).knots.knot (c.order - 2) = _
      rw [knot_dropStart, start]
    · show (c.dropStart a).knots.knot ((c.dropStart a).knots.size + 1 - c.order)
        = c.knots.knot (c.knots.size + 1 - c.order)
      rw [knot_dropStart, size']
      exact congrArg _ (by omega)
  follows := by
    intro d p F hp follows
    obtain ⟨two, -, size, degree⟩ := h.counts
    have size' : (c.dropStart a).knots.size = c.knots.size - a := knotCount_dropStart c a
    have points : c.points.vectors.length = c.pointCount := rfl
    have shift : ∀ i, 1 ≤ i → i < c.pointCount - a + p →
        (c.dropStart a).spline.knots.knot i = c.spline.knots.knot (i + a) := by
      intro i hi hi'
      obtain ⟨i, rfl⟩ : ∃ m, i = m + 1 := ⟨i - 1, by omega⟩
      show ((c.dropStart a).knots.padded c.order).knot (i + 1)
        = (c.knots.padded c.order).knot (i + 1 + a)
      rw [KnotVector.knot_padded _ _ (by omega), knot_dropStart,
          show i + 1 + a = i + a + 1 by omega, KnotVector.knot_padded _ _ (by omega)]
    -- the span `i` of what is left is the span `i + a` of the curve
    show Follows _ (c.points.withVectors (c.points.vectors.drop a)).vectors F
    rw [ControlPoints.vectors_withVectors]
    intro i hpi hi t low high j hj hj'
    rw [List.length_drop, points] at hi
    rw [shift i (by omega) (by omega)] at low
    rw [shift (i + 1) (by omega) (by omega), show i + 1 + a = i + a + 1 by omega] at high
    have entry : (c.points.vectors.drop a).getD j [] = c.points.vectors.getD (j + a) [] := by
      simp only [List.getD_eq_getElem?_getD, List.getElem?_drop, Nat.add_comm a j]
    rw [entry, follows (i + a) (by omega) (by omega) t low high (j + a) (by omega) (by omega)]
    refine congrArg (fun s => Point.ofVec (F t s)) (stretch_congr fun r hr => ?_)
    rw [shift _ (by omega) (by omega)]
    exact congrArg _ (by omega)
  hull := by
    show InHull _ (c.points.withVectors _).vectors
    rw [ControlPoints.vectors_withVectors]
    exact inHull_of_subset (List.drop_subset a _)

/-- A run of equal knots in front clamps the start. -/
theorem knot_of_values_eq {c : Curve K} {n : Nat} {u : K} {rest : List K}
    (values : c.knots.values = List.replicate n u ++ rest) {i : Nat} (hi : i < n) :
    c.knots.knot i = u := by
  rw [KnotVector.knot, values, List.getD_append _ _ _ _ (by simpa using hi),
      List.getD_eq_getElem _ _ (by simpa using hi), List.getElem_replicate]

/-- The first parameter is a knot, and few knots lie before it. -/
theorem Sound.count_start {c : Curve K} (h : c.Sound) (domain : c.domain.1 < c.domain.2) :
    c.knots.countBelow c.domain.1 ≤ c.order - 2 ∧ c.order - 2 < c.knots.countUpTo c.domain.1
      ∧ c.knots.countUpTo c.domain.1 < c.pointCount := by
  obtain ⟨order, points, size, degree⟩ := h.counts
  have start : c.domain.1 = c.knots.knot (c.order - 2) := rfl
  have finish := h.domain_snd
  refine ⟨?_, (h.ordered.knot_le_iff (by omega)).1 start.ge, ?_⟩
  · refine not_lt.1 fun e => ?_
    exact lt_irrefl _ ((h.ordered.knot_lt_iff (by omega)).2 e)
  · by_contra e
    have := (h.ordered.knot_le_iff (i := c.pointCount - 1) (u := c.domain.1) (by omega)).2
      (by omega)
    rw [← finish] at this
    exact absurd domain (not_lt.2 this)

/-- Trimming a spline drops what lies before the first copy of the start. -/
theorem trimStart_eq {α : Type} [Scalar α] {c : Curve α} {S : Spline α} {u : α} {a : Nat}
    (order : S.degree + 1 = c.order)
    (first : S.knots.values.findIdx? (· == u) = some (a + 1)) (points : a ≤ S.points.length) :
    c.trimStart S u = .ok ((c.withSpline S).dropStart a) := by
  have inside : a + 1 < S.knots.size := (List.findIdx?_eq_some_iff_getElem.1 first).1
  unfold trimStart
  dsimp only
  rw [first, Option.getD_some, Nat.max_eq_right (Nat.le_add_left 1 a),
      if_pos ⟨inside, Nat.succ_le_succ points⟩]
  have knots : S.knots.values.dropLast.drop (a + 1) = S.knots.values.tail.dropLast.drop a := by
    rw [← List.tail_dropLast, List.drop_tail]
  have vectors : (c.points.withVectors S.points).withVectors (S.points.drop a)
      = c.points.withVectors (S.points.drop a) := by
    cases c.points <;> rfl
  show _ = Except.ok (Curve.mk c.dimension (S.degree + 1)
    ((c.points.withVectors S.points).withVectors
      ((c.points.withVectors S.points).vectors.drop a))
    ⟨S.knots.values.tail.dropLast.drop a⟩)
  rw [ControlPoints.vectors_withVectors, vectors, order, knots, Nat.add_sub_cancel]

/-- The knots of a curve whose start is clamped already. -/
theorem Sound.values_of_isClamped {c : Curve K} (h : c.Sound) (domain : c.domain.1 < c.domain.2)
    (clamped : c.isClamped .start = true) :
    c.knots.values
      = List.replicate (max (c.knots.count c.domain.1) c.degree) c.domain.1
        ++ c.knots.values.filter fun k => decide (c.domain.1 < k) := by
  have none := h.countBelow_start clamped
  have degree : c.degree = c.order - 1 := rfl
  have split := KnotVector.countUpTo_eq c.knots c.domain.1
  obtain ⟨-, reach, -⟩ := h.count_start domain
  have parts := h.ordered.values_eq c.domain.1
  rw [max_eq_left (by omega)]
  rw [KnotVector.countBelow, List.countP_eq_length_filter, List.length_eq_zero_iff] at none
  rwa [none, List.nil_append] at parts

variable [IsStrictOrderedRing K]

/-- An open start lies behind the knot that padding adds. -/
theorem Sound.superfluous_lt_of_open {c : Curve K} (h : c.Sound)
    (opened : ¬c.isClamped .start = true) :
    c.knots.superfluous c.order .start < c.domain.1 := by
  obtain ⟨two, enough, size, -⟩ := h.counts
  refine (h.ordered.superfluous_start_le c.order).trans_lt (lt_of_le_of_ne ?_ fun same => ?_)
  · exact h.ordered.knot_le (Nat.zero_le _) (show c.order - 2 < c.knots.size by omega)
  · exact opened (isClamped_start_iff.2 same)

/-- Behind the copies of the start, the padding stands before the knots below it. -/
theorem Sound.countBelow_insertTimes {c : Curve K} (h : c.Sound) {u : K} {times : Nat}
    (start : c.domain.1 ≤ u) (first : c.knots.superfluous c.order .start < u)
    (finish : u < c.domain.2) (room : 0 < times → c.spline.knots.count u + times ≤ c.degree) :
    (c.spline.insertTimes u times).knots.countBelow u = c.knots.countBelow u + 1 := by
  have inside : (c.knots.values.filter fun k => decide (k < u)).countP (fun k => decide (k < u))
      = c.knots.countBelow u := by
    rw [List.countP_filter]
    simp only [Bool.and_self]
    rfl
  have outside : (c.knots.values.filter fun k => decide (u < k)).countP (fun k => decide (k < u))
      = 0 := by
    refine List.countP_eq_zero.2 fun k hk => ?_
    have := of_decide_eq_true (List.mem_filter.1 hk).2
    simpa using this.le
  have last : ¬c.knots.superfluous c.order .finish < u :=
    not_lt.2 (finish.le.trans h.le_superfluous)
  obtain ⟨upTo, above⟩ := h.filter_padded start finish
  rw [KnotVector.countBelow, (h.spans start finish).values_insertTimes room, upTo, above,
      h.ordered.filter_le_eq]
  simp only [List.countP_append, List.countP_cons, List.countP_replicate, inside, outside,
    first, last, lt_irrefl, decide_true, decide_false, if_true, List.countP_nil]
  simp

/-- Without what lies before them, the copies of the start come first. -/
theorem Sound.values_dropStart_insertTimes {c : Curve K} (h : c.Sound)
    (domain : c.domain.1 < c.domain.2) {times : Nat}
    (room : 0 < times → c.spline.knots.count c.domain.1 + times ≤ c.degree) :
    ((c.withSpline (c.spline.insertTimes c.domain.1 times)).dropStart
        (c.knots.countBelow c.domain.1)).knots.values
      = List.replicate (c.knots.count c.domain.1 + times) c.domain.1
        ++ c.knots.values.filter fun k => decide (c.domain.1 < k) := by
  obtain ⟨-, -, -, values⟩ := h.insertTimes (le_refl _) domain room
  have below : (c.knots.values.filter fun k => decide (k < c.domain.1)).length
      = c.knots.countBelow c.domain.1 := List.countP_eq_length_filter.symm
  show ((c.withSpline _).knots.values).drop _ = _
  rw [values, h.ordered.filter_le_eq, List.append_assoc, List.append_assoc, ← below,
      List.drop_left, ← List.append_assoc, List.replicate_append_replicate]

/-- **The start of a curve with a domain can be clamped.** -/
theorem Sound.clampStart {c : Curve K} (h : c.Sound) (domain : c.domain.1 < c.domain.2) :
    ∃ e, c.clampStart = .ok e ∧ e.Sound ∧ Keeps c e ∧ e.isClamped .start = true
      ∧ e.knots.values
        = List.replicate (max (c.knots.count c.domain.1) c.degree) c.domain.1
          ++ c.knots.values.filter fun k => decide (c.domain.1 < k) := by
  unfold Curve.clampStart
  by_cases clamped : c.isClamped .start = true
  · rw [if_pos clamped]
    exact ⟨c, rfl, h, Keeps.refl c, clamped, h.values_of_isClamped domain clamped⟩
  · rw [if_neg clamped]
    dsimp only
    obtain ⟨two, enough, size, degree⟩ := h.counts
    have split := KnotVector.countUpTo_eq c.knots c.domain.1
    obtain ⟨low, reach, high⟩ := h.count_start domain
    have first := h.superfluous_lt_of_open clamped
    have padded := h.count_padded first domain
    have spans := h.spans (le_refl _) domain
    -- copies are added up to the degree, and what lies before them is dropped
    obtain ⟨times, missing⟩ : ∃ times, times = c.degree - c.knots.count c.domain.1 := ⟨_, rfl⟩
    rw [← missing]
    have room : 0 < times → c.spline.knots.count c.domain.1 + times ≤ c.degree := by omega
    obtain ⟨sound, keeps, count, -⟩ := h.insertTimes (le_refl _) domain room
    obtain ⟨after, afterDegree, afterCount⟩ := spans.insertTimes room
    have points := spans.points_length_insertTimes room
    have splineDegree : c.spline.degree = c.degree := rfl
    have splinePoints : c.spline.points.length = c.pointCount := rfl
    have trimmed := h.values_dropStart_insertTimes domain room
    rw [show c.knots.count c.domain.1 + times = max (c.knots.count c.domain.1) c.degree by omega]
      at trimmed
    have front : ∀ i < c.degree, ((c.withSpline (c.spline.insertTimes c.domain.1 times)).dropStart
        (c.knots.countBelow c.domain.1)).knots.knot i = c.domain.1 := fun i hi =>
      knot_of_values_eq trimmed (by omega)
    have enough' : (c.withSpline (c.spline.insertTimes c.domain.1 times)).order
        + c.knots.countBelow c.domain.1
          ≤ (c.withSpline (c.spline.insertTimes c.domain.1 times)).pointCount := by
      rw [keeps.order, count]
      omega
    rw [spans.insertTimes?_eq room]
    dsimp only
    have found := after.ordered.findIdx?_eq (u := c.domain.1) (by omega)
    rw [h.countBelow_insertTimes (le_refl _) first domain room] at found
    rw [trimStart_eq (by omega) found (by omega)]
    refine ⟨_, rfl, sound.dropStart enough', keeps.trans (sound.keeps_dropStart enough' ?_), ?_,
      trimmed⟩
    · rw [← knot_dropStart, keeps.domain]
      exact front _ (by rw [keeps.order]; omega)
    · refine isClamped_start_iff.2 ?_
      rw [front 0 (by omega)]
      exact (front _ (by show (c.withSpline _).order - 2 < _; rw [keeps.order]; omega)).symm

/-! ## §2. The end, and both ends. -/

theorem Sound.domain_lt_invert {c : Curve K} (h : c.Sound) (domain : c.domain.1 < c.domain.2) :
    c.invert.domain.1 < c.invert.domain.2 := by
  rw [h.domain_invert]
  exact neg_lt_neg domain

/-- **The end of a curve with a domain can be clamped.** -/
theorem Sound.clampFinish {c : Curve K} (h : c.Sound) (domain : c.domain.1 < c.domain.2) :
    ∃ e, c.clampEnd .finish = .ok e ∧ e.Sound ∧ Keeps c e ∧ e.isClamped .finish = true
      ∧ e.knots.values
        = (c.knots.values.filter fun k => decide (k < c.domain.2))
          ++ List.replicate (max (c.knots.count c.domain.2) c.degree) c.domain.2 := by
  obtain ⟨e, ok, sound, keeps, clamped, values⟩ :=
    h.invert.clampStart (h.domain_lt_invert domain)
  refine ⟨e.invert, ?_, sound.invert, keeps.invert h sound, ?_, ?_⟩
  · show c.invert.clampStart.map Curve.invert = _
    rw [ok]
    rfl
  · rw [sound.isClamped_invert.2, clamped]
  · have mirrored : (c.knots.invert.values.filter fun k => decide (-c.domain.2 < k)).reverse.map
        Neg.neg = c.knots.values.filter fun k => decide (k < c.domain.2) := by
      simp only [KnotVector.invert]
      rw [List.filter_map, ← List.map_reverse, List.filter_reverse, List.reverse_reverse,
          List.map_map]
      simp [Function.comp_def]
    have count : c.invert.knots.count (-c.domain.2) = c.knots.count c.domain.2 :=
      KnotVector.count_invert _ _
    rw [h.domain_invert] at values
    dsimp only at values
    rw [count] at values
    show e.knots.values.reverse.map Neg.neg = _
    rw [values, List.reverse_append, List.map_append, List.reverse_replicate, List.map_replicate,
        neg_neg]
    exact congrArg₂ _ mirrored rfl

/-- **Both ends of a curve with a domain can be clamped.** -/
theorem Sound.clampEnds {c : Curve K} (h : c.Sound) (domain : c.domain.1 < c.domain.2) :
    ∃ e, c.clampEnds = .ok e ∧ e.Sound ∧ Keeps c e ∧ e.isClamped .start = true
      ∧ e.isClamped .finish = true
      ∧ e.knots.values
        = List.replicate (max (c.knots.count c.domain.1) c.degree) c.domain.1
          ++ (c.knots.values.filter fun k => decide (c.domain.1 < k ∧ k < c.domain.2))
          ++ List.replicate (max (c.knots.count c.domain.2) c.degree) c.domain.2 := by
  obtain ⟨b, ok, sound, keeps, clamped, values⟩ := h.clampStart domain
  obtain ⟨e, ok', sound', keeps', clamped', values'⟩ :=
    sound.clampFinish (keeps.domain.symm ▸ domain)
  have both : e.knots.values
      = List.replicate (max (c.knots.count c.domain.1) c.degree) c.domain.1
        ++ (c.knots.values.filter fun k => decide (c.domain.1 < k ∧ k < c.domain.2))
        ++ List.replicate (max (c.knots.count c.domain.2) c.degree) c.domain.2 := by
    have count : b.knots.count c.domain.2 = c.knots.count c.domain.2 := by
      rw [KnotVector.count_eq_list_count, KnotVector.count_eq_list_count, values,
          List.count_append, List.count_replicate, List.count_filter (by simpa using domain)]
      simp [domain.ne]
    rw [values', keeps.domain, keeps.degree, count, values, List.filter_append,
        List.filter_replicate, List.filter_filter]
    simp only [domain, decide_true, if_true]
    congr 2
    refine List.filter_congr fun k _ => ?_
    rw [Bool.and_comm, ← Bool.decide_and]
  refine ⟨e, ?_, sound', keeps.trans keeps', ?_, clamped', both⟩
  · show (c.clampStart.bind fun b => b.clampEnd .finish) = _
    rw [ok]
    exact ok'
  · have positive := h.degree_pos
    rw [List.append_assoc] at both
    refine isClamped_start_iff.2 ?_
    show e.knots.knot 0 = e.knots.knot (e.order - 2)
    have order : e.order - 2 < c.degree := by
      rw [keeps'.order, keeps.order]
      show c.order - 2 < c.order - 1
      have := h.two_le_order
      omega
    rw [knot_of_values_eq both (by omega), knot_of_values_eq both (by omega)]

/-- Of a curve without over-full knots, the ends get exactly full multiplicity. -/
theorem Regular.clampEnds {c : Curve K} (h : c.Regular) :
    ∃ e, c.clampEnds = .ok e ∧ e.Sound ∧ Keeps c e ∧ e.isClamped .start = true
      ∧ e.isClamped .finish = true ∧ e.pointCount = c.pointCount
      ∧ e.knots.values
        = List.replicate c.degree c.domain.1
          ++ (c.knots.values.filter fun k => decide (c.domain.1 < k ∧ k < c.domain.2))
          ++ List.replicate c.degree c.domain.2 := by
  obtain ⟨e, ok, sound, keeps, start, finish, values⟩ := h.toSound.clampEnds h.domain_lt
  rw [max_eq_right (h.count_le _), max_eq_right (h.count_le _)] at values
  refine ⟨e, ok, sound, keeps, start, finish, ?_, values⟩
  obtain ⟨two, enough, size, degree⟩ := h.counts
  have length := congrArg List.length values
  have interior := KnotVector.length_between c.knots h.domain_lt
  have upTo := h.countUpTo_start
  have below := h.countBelow_finish
  have after := sound.knotCount_eq
  rw [keeps.order] at after
  have size' : e.knots.values.length = e.knotCount := rfl
  have atLeast := sound.order_le
  rw [keeps.order] at atLeast
  simp only [List.length_append, List.length_replicate] at length
  omega

end Curve

end RationalSpline
