/-
  RationalSpline.Proofs.SpanExtraction
  ────────────────────────────────────
  A SINGLE SPAN IN BÉZIER FORM.

  The knots and control points that act on one span make a regular curve whose domain is
  that span.  Clamped at both ends it has no knots but copies of these two, so its
  control points are the values of the form of the span at them, and de Casteljau's
  algorithm computes the value of that form at equal arguments.
-/
import RationalSpline.Proofs.ClosedSpans
import RationalSpline.Proofs.SplitCurve

namespace RationalSpline

variable {K : Type} [Field K] [LinearOrder K]

/-! ## §1. De Casteljau's algorithm. -/

theorem getD_casteljauRound {s : K} {points : List (Point K)} {r : Nat}
    (hr : r + 1 < points.length) :
    (casteljauRound s points).getD r []
      = Point.blend s (points.getD r []) (points.getD (r + 1) []) := by
  induction points generalizing r with
  | nil => simp at hr
  | cons x xs ih =>
      cases xs with
      | nil => simp at hr
      | cons y ys =>
          cases r with
          | zero => rfl
          | succ r => exact ih (Nat.lt_of_succ_lt_succ hr)

/-- **The algorithm computes the form whose values the points are.** -/
theorem casteljau_eq {d p : Nat} (f : PolarForm K (Fin d → K) p) {s a b : K} {n : Nat}
    {held : Multiset K} (card : n + held.card = p) {points : List (Point K)}
    (length : points.length = n + 1)
    (values : ∀ r ≤ n, points.getD r []
      = Point.ofVec (f (Multiset.replicate (n - r) a + Multiset.replicate r b + held))) :
    casteljau s n points = Point.ofVec (f (Multiset.replicate n (mix s a b) + held)) := by
  induction n generalizing points held with
  | zero =>
      obtain ⟨x, rfl⟩ := List.length_eq_one_iff.1 length
      simpa [casteljau] using values 0 le_rfl
  | succ n ih =>
      -- a round holds one more argument at the mixture
      have round : ∀ r ≤ n, (casteljauRound s points).getD r []
          = Point.ofVec (f (Multiset.replicate (n - r) a + Multiset.replicate r b
            + mix s a b ::ₘ held)) := by
        intro r hr
        have left : Multiset.replicate (n + 1 - r) a + Multiset.replicate r b + held
            = a ::ₘ (Multiset.replicate (n - r) a + Multiset.replicate r b + held) := by
          rw [show n + 1 - r = n - r + 1 by omega, Multiset.replicate_succ]
          simp
        have right : Multiset.replicate (n + 1 - (r + 1)) a + Multiset.replicate (r + 1) b + held
            = b ::ₘ (Multiset.replicate (n - r) a + Multiset.replicate r b + held) := by
          rw [Nat.add_sub_add_right, Multiset.replicate_succ]
          simp
        have middle : Multiset.replicate (n - r) a + Multiset.replicate r b + mix s a b ::ₘ held
            = mix s a b ::ₘ (Multiset.replicate (n - r) a + Multiset.replicate r b + held) := by
          simp
        rw [getD_casteljauRound (by omega), values r (by omega), values (r + 1) (by omega), left,
            right, middle, Point.blend_ofVec, f.affine]
        simp only [Multiset.card_add, Multiset.card_replicate]
        omega
      rw [casteljau, ih (by rw [Multiset.card_cons]; omega) (by simp [length]) round,
          Multiset.replicate_succ]
      simp

/-! ## §2. The part of a curve that acts on one span. -/

namespace Curve

variable {c : Curve K} {index : Nat}

theorem knot_spanCurve {i : Nat} (hi : i < 2 * (c.order - 1)) :
    (c.spanCurve index).knots.knot i = c.knots.knot (index + i) := by
  simp [spanCurve, KnotVector.knot, List.getD_eq_getElem?_getD, hi]

omit [Field K] [LinearOrder K] in
theorem pointCount_spanCurve (inside : index + c.order ≤ c.pointCount) :
    (c.spanCurve index).pointCount = c.order := by
  have length : c.points.vectors.length = c.pointCount := rfl
  rw [pointCount, spanCurve, ControlPoints.length_withVectors, List.length_take,
      List.length_drop]
  omega

/-- Its counts fit, since the vectors of one span and the knots around them are taken. -/
theorem Sound.spanCurve (h : c.Sound) (inside : index + c.order ≤ c.pointCount) :
    (c.spanCurve index).Sound where
  two_le_order := h.two_le_order
  order_le := (pointCount_spanCurve inside).ge
  knotCount_eq := by
    have order := h.two_le_order
    have size : c.knots.values.length = c.pointCount + c.order - 2 := h.knotCount_eq
    rw [pointCount_spanCurve inside]
    show ((c.knots.values.drop index).take (2 * (c.order - 1))).length = c.order + c.order - 2
    rw [List.length_take, List.length_drop]
    omega
  ordered := h.ordered.sublist ((List.take_sublist _ _).trans (List.drop_sublist _ _))
  sized := by
    intro x hx
    have rational : (c.spanCurve index).isRational = c.isRational :=
      ControlPoints.isRational_withVectors _ _
    have size : (c.spanCurve index).vectorSize = c.vectorSize := by
      rw [vectorSize, vectorSize, rational]
      rfl
    rw [Curve.spanCurve, ControlPoints.vectors_withVectors] at hx
    rw [size]
    exact h.sized x (List.mem_of_mem_drop (List.mem_of_mem_take hx))

/-- The span is its domain. -/
theorem Sound.domain_spanCurve (h : c.Sound) (inside : index + c.order ≤ c.pointCount) :
    (c.spanCurve index).domain
      = (c.knots.knot (c.order - 2 + index), c.knots.knot (c.order - 1 + index)) := by
  have order := h.two_le_order
  have count := (h.spanCurve inside).knotCount_eq
  have size : (c.spanCurve index).knots.size = (c.spanCurve index).knotCount := rfl
  rw [pointCount_spanCurve inside] at count
  have same : (c.spanCurve index).order = c.order := rfl
  rw [domain, KnotVector.domain, same,
      show (c.spanCurve index).knots.size + 1 - c.order = c.order - 1 by omega,
      knot_spanCurve (by omega), knot_spanCurve (by omega), Nat.add_comm index, Nat.add_comm index]

/-- **A non-empty span is the domain of a regular curve.** -/
theorem Regular.spanCurve [IsStrictOrderedRing K] (h : c.Regular)
    (inside : index + c.order ≤ c.pointCount)
    (lt : c.knots.knot (c.order - 2 + index) < c.knots.knot (c.order - 1 + index)) :
    (c.spanCurve index).Regular := by
  have order := h.two_le_order
  have count := pointCount_spanCurve inside
  have span : (c.spanCurve index).knots.knot (c.order - 2)
      < (c.spanCurve index).knots.knot (c.order - 1) := by
    rw [knot_spanCurve (by omega), knot_spanCurve (by omega), Nat.add_comm index,
        Nat.add_comm index]
    exact lt
  exact
    { toSound := h.toSound.spanCurve inside
      dimension_pos := h.dimension_pos
      first_span := span
      last_span := by
        rw [count]
        exact span
      count_le := fun u => by
        refine le_trans ?_ (h.count_le u)
        rw [KnotVector.count_eq_list_count, KnotVector.count_eq_list_count]
        exact List.Sublist.count_le u ((List.take_sublist _ _).trans (List.drop_sublist _ _))
      weight_pos := ControlPoints.forall_weights_pos_iff.2
        (ControlPoints.positive_withVectors fun rational x hx =>
          h.positive rational x (List.mem_of_mem_drop (List.mem_of_mem_take hx))) }

/-- The forms of its one span are those of the curve. -/
theorem Sound.follows_spanCurve (h : c.Sound) (inside : index + c.order ≤ c.pointCount) {d : Nat}
    {F : Pieces K d c.degree} (follows : Follows c.spline.knots c.points.vectors F) :
    Follows (c.spanCurve index).spline.knots (c.spanCurve index).points.vectors F := by
  have order := h.two_le_order
  have degree : c.degree = c.order - 1 := rfl
  have count : (c.spanCurve index).points.vectors.length = c.order := pointCount_spanCurve inside
  have sound := h.spanCurve inside
  have size : c.knots.size = c.pointCount + c.order - 2 := h.knotCount_eq
  have size' : (c.spanCurve index).knots.size = c.order + c.order - 2 := by
    have := sound.knotCount_eq
    rw [pointCount_spanCurve inside] at this
    exact this
  have knot : ∀ i, 1 ≤ i → i ≤ 2 * c.degree →
      (c.spanCurve index).spline.knots.knot i = c.spline.knots.knot (index + i) := by
    intro i low high
    obtain ⟨i, rfl⟩ : ∃ j, i = j + 1 := ⟨i - 1, by omega⟩
    show ((c.spanCurve index).knots.padded _).knot (i + 1)
      = (c.knots.padded _).knot (index + i + 1)
    rw [KnotVector.knot_padded _ _ (by omega), KnotVector.knot_padded _ _ (by omega),
        knot_spanCurve (by omega)]
  intro i hp hi t low high j hj hj'
  -- there is one span, which is the span `index + degree` of the curve
  obtain rfl : i = c.degree := by omega
  rw [knot _ (by omega) (by omega)] at low
  rw [knot _ (by omega) (by omega)] at high
  have acts := follows (index + c.degree) (by omega) (by show _ < c.pointCount; omega) t low high
    (index + j) (by omega) (by omega)
  have stretched : stretch (c.spanCurve index).spline.knots.knot (j + 1) c.degree
      = stretch c.spline.knots.knot (index + j + 1) c.degree :=
    stretch_congr fun r hr => by
      rw [knot _ (by omega) (by omega)]
      congr 1
      omega
  have taken : j < c.order := by omega
  rw [stretched, ← acts]
  simp [Curve.spanCurve, List.getD_eq_getElem?_getD, taken]

/-! ## §3. The span in Bézier form. -/

section Bezier

variable [IsStrictOrderedRing K]

omit [IsStrictOrderedRing K] in
/-- No knot lies inside a span. -/
theorem Sound.interior_spanCurve (h : c.Sound) (inside : index + c.order ≤ c.pointCount) :
    (c.spanCurve index).interior = [] := by
  have order := h.two_le_order
  have sound := h.spanCurve inside
  have count := sound.knotCount_eq
  have size : (c.spanCurve index).knots.size = (c.spanCurve index).knotCount := rfl
  have same : (c.spanCurve index).order = c.order := rfl
  rw [pointCount_spanCurve inside, same] at count
  have start : (c.spanCurve index).domain.1 = (c.spanCurve index).knots.knot (c.order - 2) := rfl
  have finish : (c.spanCurve index).domain.2 = (c.spanCurve index).knots.knot (c.order - 1) := by
    show (c.spanCurve index).knots.knot ((c.spanCurve index).knots.size + 1 - c.order) = _
    exact congrArg _ (by omega)
  refine List.filter_eq_nil_iff.2 fun k hk between => ?_
  obtain ⟨i, hi, rfl⟩ := KnotVector.exists_knot_of_mem hk
  obtain ⟨low, high⟩ := of_decide_eq_true between
  rw [start] at low
  rw [finish] at high
  by_cases before : i ≤ c.order - 2
  · exact absurd (sound.ordered.knot_le before (by omega)) (not_le.2 low)
  · exact absurd (sound.ordered.knot_le (show c.order - 1 ≤ i by omega) hi) (not_le.2 high)

/-- **Clamped at both ends, a span has the values of its form as control points.** -/
theorem Regular.clampEnds_spanCurve (h : c.Regular) (inside : index + c.order ≤ c.pointCount)
    {a b : K} (ha : c.knots.knot (c.order - 2 + index) = a)
    (hb : c.knots.knot (c.order - 1 + index) = b) (lt : a < b) {d : Nat}
    {F : Pieces K d c.degree} (follows : Follows c.spline.knots c.points.vectors F) {t : K}
    (low : a < t) (high : t < b) :
    ∃ e, (c.spanCurve index).clampEnds = .ok e ∧ e.pointCount = c.order
      ∧ e.isRational = c.isRational ∧ ∀ r ≤ c.degree, e.points.vectors.getD r []
        = Point.ofVec (F t (Multiset.replicate (c.degree - r) a + Multiset.replicate r b)) := by
  have two := h.two_le_order
  have span := h.spanCurve inside (by rwa [ha, hb])
  obtain ⟨e, ok, sound, keeps, -, -, count, values⟩ := span.clampEnds
  have degree : e.degree = c.degree := keeps.degree
  have positive : c.degree = c.order - 1 := rfl
  have interior := h.toSound.interior_spanCurve inside
  rw [Curve.interior] at interior
  have full : e.knots.values = [a, b].flatMap (List.replicate e.degree) := by
    rw [values, interior, h.toSound.domain_spanCurve inside, ha, hb, degree]
    simp
    rfl
  have count' : e.pointCount = c.order := count.trans (pointCount_spanCurve inside)
  refine ⟨e, ok, count', keeps.rational.trans (ControlPoints.isRational_withVectors _ _),
    fun r hr => ?_⟩
  have start : e.spline.knots.knot c.degree = a := by
    have first := knot_segment sound full (j := 0) (q := c.degree - 1) (by simp) (by omega)
    rwa [Nat.mul_zero, Nat.zero_add, show c.degree - 1 + 1 = c.degree by omega] at first
  have finish : e.spline.knots.knot (c.degree + 1) = b := by
    have second := knot_segment sound full (j := 1) (q := 0) (by simp) (by omega)
    rwa [Nat.mul_one, Nat.add_zero, degree] at second
  have stretched := stretch_segment sound full (k := 0) (r := r) (by simp) (by omega)
  rw [Nat.mul_zero, Nat.zero_add, degree] at stretched
  have kept : Follows e.spline.knots e.points.vectors F :=
    keeps.follows (show (c.spanCurve index).degree = c.degree from rfl)
      (h.toSound.follows_spanCurve inside follows)
  rw [kept c.degree le_rfl (by show _ < e.pointCount; omega) t (by rwa [start])
    (by rwa [finish]) r hr (by omega), stretched]
  rfl

omit [IsStrictOrderedRing K] in
/-- The three results of the extraction. -/
theorem Sound.bezierSpan_eq (h : c.Sound) (index : Nat) :
    c.bezierSpan index
      = if c.pointCount - c.order < index then
          .error (.invalidIndex index (c.pointCount - c.order + 1))
        else if c.knots.knot (c.order - 1 + index) ≤ c.knots.knot (c.order - 2 + index) then
          .error (.outOfDomain (.emptySpan index (c.knots.knot (c.order - 2 + index))))
        else (c.spanCurve index).clampEnds.map fun e => ⟨c.dimension, e.points⟩ := by
  have hasSpan : c.hasSpan = true := decide_eq_true h.order_le
  unfold bezierSpan checkIndex
  rw [hasSpan]
  by_cases inside : index < c.pointCount - c.order + 1
  · rw [if_pos inside, if_neg (show ¬c.pointCount - c.order < index by omega)]
    rfl
  · rw [if_neg inside, if_pos (show c.pointCount - c.order < index by omega)]
    rfl

/-- **The Bézier form of a span has the values of its form as control points.** -/
theorem Regular.bezierSpan_values (h : c.Regular) (inside : index + c.order ≤ c.pointCount)
    {a b : K} (ha : c.knots.knot (c.order - 2 + index) = a)
    (hb : c.knots.knot (c.order - 1 + index) = b) (lt : a < b) {d : Nat}
    {F : Pieces K d c.degree} (follows : Follows c.spline.knots c.points.vectors F) {t : K}
    (low : a < t) (high : t < b) :
    ∃ s, c.bezierSpan index = .ok s ∧ s.order = c.order ∧ s.dimension = c.dimension
      ∧ s.points.isRational = c.isRational ∧ ∀ r ≤ c.degree, s.points.vectors.getD r []
        = Point.ofVec (F t (Multiset.replicate (c.degree - r) a + Multiset.replicate r b)) := by
  obtain ⟨e, ok, count, rational, values⟩ :=
    h.clampEnds_spanCurve inside ha hb lt follows low high
  refine ⟨⟨c.dimension, e.points⟩, ?_, count, rfl, rational, values⟩
  rw [h.toSound.bezierSpan_eq, if_neg (by omega), ha, hb, if_neg (not_le.2 lt), ok]
  rfl

/-- **The Bézier form of a span has its values.** -/
theorem Regular.bezierSpan_eq_ok (h : c.Regular) (inside : index + c.order ≤ c.pointCount)
    {a b : K} (ha : c.knots.knot (c.order - 2 + index) = a)
    (hb : c.knots.knot (c.order - 1 + index) = b) (lt : a < b) :
    ∃ s, c.bezierSpan index = .ok s ∧ s.order = c.order ∧ s.dimension = c.dimension
      ∧ s.points.isRational = c.isRational
      ∧ ∀ u, 0 ≤ u → u ≤ 1 → s.pointAt u = c.definedAt (a + (b - a) * u) := by
  obtain ⟨two, enough, size, positive⟩ := h.counts
  obtain ⟨F, follows⟩ := h.toSound.exists_follows rfl rfl
  obtain ⟨t, low, high⟩ := exists_between lt
  obtain ⟨s, extracted, order, dimension, rational, values⟩ :=
    h.bezierSpan_values inside ha hb lt follows low high
  refine ⟨s, extracted, order, dimension, rational, fun u h₀ h₁ => ?_⟩
  -- both are values of the form of the span
  have start : c.spline.knots.knot (index + c.degree) = a := by
    rw [← ha, show index + c.degree = c.order - 2 + index + 1 by omega]
    exact KnotVector.knot_padded _ _ (by omega)
  have finish : c.spline.knots.knot (index + c.degree + 1) = b := by
    rw [← hb, show index + c.degree = c.order - 1 + index by omega]
    exact KnotVector.knot_padded _ _ (by omega)
  have position : a + (b - a) * u = mix u a b := by
    simp only [mix, smul_eq_mul]
    ring
  obtain ⟨above, below⟩ := mix_mem lt.le h₀ h₁
  have vector : s.vectorAt u = c.definedVector (mix u a b) := by
    have length : s.points.vectors.length = c.degree + 1 := by
      show s.order = _
      omega
    have algorithm : casteljau u c.degree s.points.vectors
        = Point.ofVec (F t (Multiset.replicate c.degree (mix u a b) + 0)) :=
      casteljau_eq (F t) (by simp) length (by simpa using values)
    have degree : s.degree = c.degree := by
      rw [BezierCurve.degree, order]
      rfl
    rw [BezierCurve.vectorAt, degree, algorithm, add_zero,
        h.definedVector_on rfl rfl follows (Nat.le_add_left _ index) (by omega) (by rwa [start])
          (by rwa [finish]) (by rwa [start]) (by rwa [finish])]
  rw [BezierCurve.pointAt, definedAt, position, vector, rational]

/-- What extraction gives: an index beyond the last span, an empty span, or a span with the
values of the curve. -/
theorem Regular.bezierSpan_cases (h : c.Regular) (index : Nat) :
    (c.pointCount - c.order < index
        ∧ c.bezierSpan index = .error (.invalidIndex index (c.pointCount - c.order + 1)))
      ∨ (index ≤ c.pointCount - c.order
        ∧ c.knots.knot (c.order - 2 + index) = c.knots.knot (c.order - 1 + index)
        ∧ c.bezierSpan index
          = .error (.outOfDomain (.emptySpan index (c.knots.knot (c.order - 2 + index)))))
      ∨ (index ≤ c.pointCount - c.order
        ∧ c.knots.knot (c.order - 2 + index) < c.knots.knot (c.order - 1 + index)
        ∧ ∃ s, c.bezierSpan index = .ok s ∧ s.order = c.order ∧ s.dimension = c.dimension
          ∧ s.points.isRational = c.isRational
          ∧ ∀ u, 0 ≤ u → u ≤ 1 → s.pointAt u = c.definedAt
            (c.knots.knot (c.order - 2 + index) + (c.knots.knot (c.order - 1 + index)
              - c.knots.knot (c.order - 2 + index)) * u)) := by
  obtain ⟨two, enough, size, degree⟩ := h.counts
  rw [h.toSound.bezierSpan_eq]
  by_cases beyond : c.pointCount - c.order < index
  · exact .inl ⟨beyond, if_pos beyond⟩
  · have inside : index ≤ c.pointCount - c.order := by omega
    have le : c.knots.knot (c.order - 2 + index) ≤ c.knots.knot (c.order - 1 + index) :=
      h.ordered.knot_le (by omega) (by omega)
    rw [if_neg beyond]
    rcases le.eq_or_lt with same | lt
    · exact .inr (.inl ⟨inside, same, if_pos same.ge⟩)
    · have acting : index + c.order ≤ c.pointCount := by omega
      obtain ⟨s, ok, rest⟩ := h.bezierSpan_eq_ok acting rfl rfl lt
      rw [h.toSound.bezierSpan_eq, if_neg beyond] at ok
      exact .inr (.inr ⟨inside, lt, s, ok, rest⟩)

/-! ## §4. The spans that can be extracted. -/

omit [IsStrictOrderedRing K] in
/-- A list in order begins with its least entry, and so do its distinct entries. -/
theorem head_dedup {x : K} {xs : List K} (ordered : (x :: xs).Pairwise (· ≤ ·)) :
    ∃ rest, (x :: xs).dedup = x :: rest := by
  induction xs generalizing x with
  | nil => exact ⟨[], by simp⟩
  | cons y ys ih =>
      by_cases member : x ∈ y :: ys
      · -- what comes later is at most as large as a copy of `x`, so it is one
        have least : y = x := le_antisymm
          ((List.mem_cons.1 member).elim (fun e => e.ge)
            fun later => List.rel_of_pairwise_cons ordered.of_cons later)
          (List.rel_of_pairwise_cons ordered List.mem_cons_self)
        subst least
        rw [List.dedup_cons_of_mem member]
        exact ih ordered.of_cons
      · exact ⟨(y :: ys).dedup, List.dedup_cons_of_notMem member⟩

omit [IsStrictOrderedRing K] in
/-- Neighbours that differ are neighbours among the distinct entries. -/
theorem filter_neighbours {values : List K} (ordered : values.Pairwise (· ≤ ·)) :
    ((Sequence.neighbours values).filter fun pair => decide (pair.1 ≠ pair.2))
      = Sequence.neighbours values.dedup := by
  induction values with
  | nil => rfl
  | cons x xs ih =>
      cases xs with
      | nil => rfl
      | cons y ys =>
          have rest := ih ordered.of_cons
          have pairs : Sequence.neighbours (x :: y :: ys)
              = (x, y) :: Sequence.neighbours (y :: ys) :=
            rfl
          rw [pairs]
          by_cases same : x = y
          · subst same
            rw [List.filter_cons_of_neg (by simp), rest, List.dedup_cons_of_mem List.mem_cons_self]
          · have other : x ∉ y :: ys := by
              rintro (_ | ⟨_, later⟩)
              · exact same rfl
              · exact same (le_antisymm (List.rel_of_pairwise_cons ordered List.mem_cons_self)
                  (List.rel_of_pairwise_cons ordered.of_cons later))
            obtain ⟨tail, head⟩ := head_dedup ordered.of_cons
            rw [List.filter_cons_of_pos (by simpa using same), rest,
                List.dedup_cons_of_notMem other, head]
            rfl

omit [IsStrictOrderedRing K] in
/-- The spans of the domain, empty ones included. -/
theorem Sound.neighbours_domainKnots (h : c.Sound) :
    Sequence.neighbours (c.knots.domainKnots c.order)
      = (List.range (c.pointCount - c.order + 1)).map fun index =>
        (c.knots.knot (c.order - 2 + index), c.knots.knot (c.order - 1 + index)) := by
  have two := h.two_le_order
  have enough := h.order_le
  have size : c.knots.values.length = c.pointCount + c.order - 2 := h.knotCount_eq
  have length : (c.knots.domainKnots c.order).length = c.pointCount - c.order + 2 := by
    rw [KnotVector.domainKnots, List.length_take, List.length_drop, KnotVector.size]
    omega
  have entry : ∀ i (hi : i < (c.knots.domainKnots c.order).length),
      (c.knots.domainKnots c.order)[i] = c.knots.knot (c.order - 2 + i) := fun i hi => by
    rw [KnotVector.knot_eq_getElem _ (by omega)]
    simp [KnotVector.domainKnots]
  refine List.ext_getElem (by simp [length]) fun i h₁ h₂ => ?_
  simp only [Sequence.neighbours, List.getElem_zip, List.getElem_tail, List.getElem_map,
    List.getElem_range, entry]
  rw [show c.order - 2 + (i + 1) = c.order - 1 + i by omega]

/-- The indices of the spans that are not empty, in order. -/
def spanIndices (c : Curve K) : List Nat :=
  (List.range (c.pointCount - c.order + 1)).filter fun index =>
    decide (c.knots.knot (c.order - 2 + index) < c.knots.knot (c.order - 1 + index))

omit [IsStrictOrderedRing K] in
theorem mem_spanIndices {index : Nat} : index ∈ c.spanIndices ↔ index ≤ c.pointCount - c.order
    ∧ c.knots.knot (c.order - 2 + index) < c.knots.knot (c.order - 1 + index) := by
  rw [spanIndices, List.mem_filter, List.mem_range, Nat.lt_succ_iff, decide_eq_true_eq]

omit [IsStrictOrderedRing K] in
/-- They lie between neighbouring boundaries. -/
theorem Regular.map_spanIndices (h : c.Regular) :
    (c.spanIndices.map fun index =>
        (c.knots.knot (c.order - 2 + index), c.knots.knot (c.order - 1 + index)))
      = Sequence.neighbours c.spanVector := by
  obtain ⟨two, enough, size, degree⟩ := h.counts
  have ordered : (c.knots.domainKnots c.order).Pairwise (· ≤ ·) :=
    h.ordered.sublist ((List.take_sublist _ _).trans (List.drop_sublist _ _))
  rw [h.spanVector_eq_dedup, ← filter_neighbours ordered, h.toSound.neighbours_domainKnots,
      List.filter_map]
  refine congrArg (List.map _) (List.filter_congr fun index hi => decide_eq_decide.2 ?_)
  have inside := List.mem_range.1 hi
  exact (h.ordered.knot_le (by omega) (by omega)).lt_iff_ne

/-- The spans that are extracted lie between neighbouring boundaries. -/
theorem Regular.extracted_spans (h : c.Regular) :
    (((List.range (c.pointCount - c.order + 1)).filter fun index =>
        (c.bezierSpan index).isOk).map fun index =>
      (c.knots.knot (c.order - 2 + index), c.knots.knot (c.order - 1 + index)))
      = Sequence.neighbours c.spanVector := by
  rw [← h.map_spanIndices, spanIndices]
  refine congrArg (List.map _) (List.filter_congr fun index hi => ?_)
  have inside : ¬c.pointCount - c.order < index := by
    have := List.mem_range.1 hi
    omega
  rcases h.bezierSpan_cases index with ⟨beyond, -⟩ | ⟨-, same, error⟩ | ⟨-, lt, s, ok, -⟩
  · exact absurd beyond inside
  · rw [error]
    simp [same, Except.isOk, Except.toBool]
  · rw [ok]
    simp [lt, Except.isOk, Except.toBool]

/-- **Extraction of a span agrees with the curve.**  An index beyond the last span and an empty
span are refused; every other span is given in Bézier form, with the values of the curve;
and the spans that are given are those between neighbouring boundaries. -/
theorem bezierSpan_agrees [Precision K] [Precision.Exact K] (valid : c.isValid = true) :
    (∀ index,
        (c.bezierSpan index = .error (.invalidIndex index (c.pointCount - c.order + 1))
          ↔ c.pointCount - c.order < index)
      ∧ (c.bezierSpan index
            = .error (.outOfDomain (.emptySpan index (c.knots.knot (c.order - 2 + index))))
          ↔ index ≤ c.pointCount - c.order
            ∧ c.knots.knot (c.order - 2 + index) = c.knots.knot (c.order - 1 + index))
      ∧ (index ≤ c.pointCount - c.order →
          c.knots.knot (c.order - 2 + index) ≠ c.knots.knot (c.order - 1 + index) →
          ∃ s, c.bezierSpan index = .ok s ∧ s.order = c.order ∧ s.dimension = c.dimension
            ∧ s.points.isRational = c.isRational
            ∧ ∀ u, 0 ≤ u → u ≤ 1 → s.pointAt u = c.definedAt
              (c.knots.knot (c.order - 2 + index) + (c.knots.knot (c.order - 1 + index)
                - c.knots.knot (c.order - 2 + index)) * u)))
      ∧ (((List.range (c.pointCount - c.order + 1)).filter fun index =>
            (c.bezierSpan index).isOk).map fun index =>
          (c.knots.knot (c.order - 2 + index), c.knots.knot (c.order - 1 + index)))
        = Sequence.neighbours c.spanVector
      ∧ ((List.range (c.pointCount - c.order + 1)).filter fun index =>
          (c.bezierSpan index).isOk).length = c.spanCount := by
  have regular := regular_of_isValid valid
  have spans := regular.extracted_spans
  refine ⟨fun index => ?_, spans, ?_⟩
  · rcases regular.bezierSpan_cases index with
      ⟨beyond, error⟩ | ⟨inside, same, error⟩ | ⟨inside, lt, s, ok, rest⟩
    · rw [error]
      refine ⟨by simp [beyond], by simp [beyond], fun inside => absurd beyond (by omega)⟩
    · rw [error]
      refine ⟨by simp [inside], by simp [inside, same], fun _ other => absurd same other⟩
    · rw [ok]
      exact ⟨by simp [inside], by simp [lt.ne], fun _ _ => ⟨s, rfl, rest⟩⟩
  · have count := congrArg List.length spans
    rwa [List.length_map, Sequence.length_neighbours] at count

/-- The second span of a curve with an unclamped start. -/
theorem bezierSpan_agrees_openStart :
    openStart.isValid = true ∧ ∃ s, openStart.bezierSpan 1 = .ok s ∧ s.order = 3
      ∧ s.pointAt (1 / 2) = openStart.definedAt (5 / 2) := by
  have valid : openStart.isValid = true := by decide +kernel
  obtain ⟨-, -, extracted⟩ := (bezierSpan_agrees valid).1 1
  obtain ⟨s, ok, order, -, -, value⟩ := extracted (by decide) (by decide +kernel)
  refine ⟨valid, s, ok, order, (value (1 / 2) (by norm_num) (by norm_num)).trans ?_⟩
  exact congrArg openStart.definedAt (by decide +kernel)

end Bezier

end Curve

end RationalSpline
