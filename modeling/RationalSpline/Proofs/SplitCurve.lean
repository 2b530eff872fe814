/-
  RationalSpline.Proofs.SplitCurve
  ────────────────────────────────
  THE SPLIT CURVE IS THE CURVE, SPAN BY SPAN.

  No insertion is refused, so splitting a valid curve succeeds.  Its knots are those of
  the domain, each repeated as often as the degree says: ordered lists with the same
  counts are equal.  Such knots are classified as Bézier spans, since copies of a knot
  are not evenly spaced and every run of the interior is full.
-/
import RationalSpline.Proofs.Splitting

namespace RationalSpline

variable {K : Type} [Field K] [LinearOrder K]

/-! ## §1. Ordered lists. -/

theorem Sequence.exists_of_mem_neighbours {β : Type} {values : List β} {pair : β × β}
    (h : pair ∈ neighbours values) (d : β) :
    ∃ k, k + 1 < values.length ∧ pair = (values.getD k d, values.getD (k + 1) d) := by
  obtain ⟨k, hk, rfl⟩ := List.getElem_of_mem h
  have room : k + 1 < values.length := by
    rw [length_neighbours] at hk
    omega
  refine ⟨k, room, ?_⟩
  rw [List.getD_eq_getElem _ _ room, List.getD_eq_getElem _ _ (by omega)]
  simp [neighbours]

/-- The entries of a list, each repeated equally often. -/
theorem getD_flatMap_replicate {β : Type} {n : Nat} {values : List β} {i : Nat}
    (inside : i < n * values.length) (d : β) :
    (values.flatMap (List.replicate n)).getD i d = values.getD (i / n) d := by
  induction values generalizing i with
  | nil => simp at inside
  | cons x xs ih =>
      rw [List.length_cons, Nat.mul_succ] at inside
      have pos : 0 < n := by
        rcases Nat.eq_zero_or_pos n with rfl | pos
        · simp at inside
        · exact pos
      rw [List.flatMap_cons]
      by_cases first : i < n
      · rw [List.getD_append _ _ _ _ (by simpa using first), Nat.div_eq_of_lt first,
            List.getD_replicate _ first, List.getD_cons_zero]
      · have step : i / n = (i - n) / n + 1 := by
          rw [← Nat.add_div_right _ pos]
          congr 1
          omega
        rw [List.getD_append_right _ _ _ _ (by simpa using first), List.length_replicate,
            ih (by omega), step, List.getD_cons_succ]

namespace KnotVector

/-- An ordered list in which every entry has the same number of copies. -/
theorem eq_flatMap_replicate {values distinct : List K} {n : Nat}
    (ordered : values.Pairwise (· ≤ ·)) (increasing : distinct.Pairwise (· < ·))
    (member : ∀ u, u ∈ values ↔ u ∈ distinct) (full : ∀ u ∈ values, values.count u = n) :
    values = distinct.flatMap (List.replicate n) := by
  have copies : (distinct.flatMap (List.replicate n)).Pairwise (· ≤ ·) := by
    refine List.pairwise_flatMap.2 ⟨fun u _ => ?_, increasing.imp fun lt x hx y hy => ?_⟩
    · exact List.pairwise_replicate.2 (.inr le_rfl)
    · rw [List.eq_of_mem_replicate hx, List.eq_of_mem_replicate hy]
      exact lt.le
  refine List.Perm.eq_of_pairwise (fun _ _ _ _ => le_antisymm) ordered copies
    (List.perm_iff_count.2 fun u => ?_)
  have multiplicities : (distinct.map fun u => (⟨u, n⟩ : KnotMultiplicity K)).flatMap
      KnotMultiplicity.occurrences = distinct.flatMap (List.replicate n) := by
    rw [List.flatMap_map]
    rfl
  rw [← multiplicities]
  by_cases hu : u ∈ values
  · have distinct' : (distinct.map fun u => (⟨u, n⟩ : KnotMultiplicity K)).Pairwise
        fun m m' => m.knot ≠ m'.knot := List.pairwise_map.2 (increasing.imp fun lt => lt.ne)
    rw [full u hu]
    exact (count_flatMap_of_mem distinct'
      (List.mem_map.2 ⟨u, (member u).1 hu, rfl⟩)).symm
  · rw [List.count_eq_zero.2 hu, count_flatMap_of_forall_ne]
    intro m hm same
    obtain ⟨v, hv, rfl⟩ := List.mem_map.1 hm
    exact hu ((member u).2 (same ▸ hv))

/-- Increasing lists with the same entries are equal. -/
theorem eq_of_mem_iff {left right : List K} (hl : left.Pairwise (· < ·))
    (hr : right.Pairwise (· < ·)) (member : ∀ u, u ∈ left ↔ u ∈ right) : left = right :=
  List.Perm.eq_of_pairwise (fun _ _ _ _ h₁ h₂ => absurd h₁ h₂.asymm) hl hr
    ((List.perm_ext_iff_of_nodup (hl.imp fun lt => lt.ne) (hr.imp fun lt => lt.ne)).2 member)

end KnotVector

namespace Curve

variable {c e : Curve K}

/-! ## §2. The boundaries of the spans. -/

/-- The boundaries increase. -/
theorem Regular.pairwise_spanVector (h : c.Regular) : c.spanVector.Pairwise (· < ·) := by
  rw [h.spanVector_eq]
  refine List.pairwise_cons.2 ⟨fun u hu => ?_, List.pairwise_append.2
    ⟨List.pairwise_map.2 h.toSound.pairwise_runs_interior, List.pairwise_singleton _ _,
      fun u hu v hv => ?_⟩⟩
  · rcases List.mem_append.1 hu with hu | hu
    · obtain ⟨m, hm, rfl⟩ := List.mem_map.1 hu
      exact (between_of_mem_interior (KnotVector.knot_mem_of_mem_runs hm)).1
    · rw [List.mem_singleton.1 hu]
      exact h.domain_lt
  · obtain ⟨m, hm, rfl⟩ := List.mem_map.1 hu
    rw [List.mem_singleton.1 hv]
    exact (between_of_mem_interior (KnotVector.knot_mem_of_mem_runs hm)).2

/-- The boundaries are the knots of the domain. -/
theorem Regular.mem_spanVector (h : c.Regular) {u : K} :
    u ∈ c.spanVector ↔ u ∈ c.knots.domainKnots c.order := by
  have runs : u ∈ (KnotVector.runs c.interior).map KnotMultiplicity.knot ↔ u ∈ c.interior := by
    constructor
    · rintro hu
      obtain ⟨m, hm, rfl⟩ := List.mem_map.1 hu
      exact KnotVector.knot_mem_of_mem_runs hm
    · intro hu
      rw [← KnotVector.flatMap_runs c.interior, List.mem_flatMap] at hu
      obtain ⟨m, hm, copy⟩ := hu
      exact List.mem_map.2 ⟨m, hm, (List.eq_of_mem_replicate copy).symm⟩
  rw [h.spanVector_eq, h.domainKnots_eq, List.mem_cons, List.mem_cons, List.mem_append,
      List.mem_append, runs]

theorem Regular.within_spanVector (h : c.Regular) {u : K} (hu : u ∈ c.spanVector) :
    c.domain.1 ≤ u ∧ u ≤ c.domain.2 := by
  rw [h.mem_spanVector, h.domainKnots_eq] at hu
  rcases List.mem_cons.1 hu with rfl | hu
  · exact ⟨le_rfl, h.domain_lt.le⟩
  · rcases List.mem_append.1 hu with hu | hu
    · exact ⟨(between_of_mem_interior hu).1.le, (between_of_mem_interior hu).2.le⟩
    · rw [List.mem_singleton.1 hu]
      exact ⟨h.domain_lt.le, le_rfl⟩

/-- **The boundaries of the spans are the distinct knots of the domain.** -/
theorem Regular.spanVector_eq_dedup (h : c.Regular) :
    c.spanVector = (c.knots.domainKnots c.order).dedup := by
  have ordered : (c.knots.domainKnots c.order).Pairwise (· ≤ ·) :=
    h.ordered.sublist ((List.take_sublist _ _).trans (List.drop_sublist _ _))
  have increasing : (c.knots.domainKnots c.order).dedup.Pairwise (· < ·) :=
    ((ordered.sublist (List.dedup_sublist _)).and (List.nodup_dedup _)).imp
      fun both => lt_of_le_of_ne both.1 both.2
  exact KnotVector.eq_of_mem_iff h.pairwise_spanVector increasing fun u => by
    rw [h.mem_spanVector, List.mem_dedup]

/-- There is a span. -/
theorem Regular.length_spanVector (h : c.Regular) : c.spanVector.length = c.spanCount + 1 := by
  rw [spanCount, h.spanVector_eq]
  simp

/-! ## §3. Full knots. -/

/-- Full knots of which the distinct ones are known. -/
theorem Regular.values_of_full (h : e.Regular) (full : e.Full) (hc : c.Regular)
    (degree : e.degree = c.degree)
    (member : ∀ u, u ∈ e.knots.values ↔ u ∈ c.knots.domainKnots c.order) :
    e.knots.values = c.spanVector.flatMap (List.replicate c.degree) :=
  KnotVector.eq_flatMap_replicate h.ordered hc.pairwise_spanVector
    (fun u => (member u).trans hc.mem_spanVector.symm) fun u hu => by
      rw [← KnotVector.count_eq_list_count, full u hu, degree]

/-- The control points then are those of so many segments, with a common point between them. -/
theorem Regular.pointCount_of_full (h : e.Regular) (hc : c.Regular) (order : e.order = c.order)
    (values : e.knots.values = c.spanVector.flatMap (List.replicate c.degree)) :
    e.pointCount = c.degree * c.spanCount + 1 := by
  have two := hc.two_le_order
  have enough := h.order_le
  have degree : c.degree = c.order - 1 := rfl
  have size : e.knots.values.length = e.pointCount + e.order - 2 := h.knotCount_eq
  have copies : (c.spanVector.flatMap (List.replicate c.degree)).length
      = c.degree * c.spanCount + c.degree := by
    rw [List.length_flatMap]
    simp only [List.length_replicate, List.map_const', List.sum_replicate, smul_eq_mul,
      hc.length_spanVector]
    ring
  rw [values, copies] at size
  omega

/-! ## §4. Segments. -/

/-- The padded knots by the place within their copies. -/
theorem knot_segment {boundaries : List K} (h : c.Sound)
    (values : c.knots.values = boundaries.flatMap (List.replicate c.degree)) {j q : Nat}
    (hj : j < boundaries.length) (hq : q < c.degree) :
    c.spline.knots.knot (c.degree * j + q + 1) = boundaries.getD j 0 := by
  have order := h.two_le_order
  have size : c.knots.size = c.degree * boundaries.length := by
    rw [KnotVector.size, values, List.length_flatMap]
    simp [Nat.mul_comm]
  have inside : c.degree * j + q < c.degree * boundaries.length := by
    have := Nat.mul_le_mul_left c.degree (Nat.succ_le_of_lt hj)
    rw [Nat.mul_succ] at this
    omega
  rw [show c.spline.knots = c.knots.padded c.order from rfl,
      KnotVector.knot_padded _ _ (by omega), KnotVector.knot, values,
      getD_flatMap_replicate inside, Nat.mul_add_div (by omega), Nat.div_eq_of_lt hq, Nat.add_zero]

/-- The knots around the points of a segment: so many copies of its start, the rest of its end. -/
theorem stretch_segment {boundaries : List K} (h : c.Sound)
    (values : c.knots.values = boundaries.flatMap (List.replicate c.degree)) {k r : Nat}
    (hk : k + 1 < boundaries.length) (hr : r ≤ c.degree) :
    stretch c.spline.knots.knot (c.degree * k + r + 1) c.degree
      = Multiset.replicate (c.degree - r) (boundaries.getD k 0)
        + Multiset.replicate r (boundaries.getD (k + 1) 0) := by
  have parts := stretch_add c.spline.knots.knot (c.degree * k + r + 1) (c.degree - r) r
  rw [show c.degree - r + r = c.degree by omega] at parts
  have front : stretch c.spline.knots.knot (c.degree * k + r + 1) (c.degree - r)
      = Multiset.replicate (c.degree - r) (boundaries.getD k 0) :=
    stretch_eq_replicate fun q hq => by
      rw [show c.degree * k + r + 1 + q = c.degree * k + (r + q) + 1 by omega]
      exact knot_segment h values (by omega) (by omega)
  have back : stretch c.spline.knots.knot (c.degree * k + r + 1 + (c.degree - r)) r
      = Multiset.replicate r (boundaries.getD (k + 1) 0) :=
    stretch_eq_replicate fun q hq => by
      rw [show c.degree * k + r + 1 + (c.degree - r) + q = c.degree * (k + 1) + q + 1 by
        rw [Nat.mul_succ]
        omega]
      exact knot_segment h values hk (by omega)
  rw [parts, front, back]

/-- Full knots on the given boundaries, as many as the control points have segments. -/
structure Segmented (c : Curve K) (boundaries : List K) (segments : Nat) : Prop where
  /-- The boundaries increase. -/
  increasing : boundaries.Pairwise (· < ·)
  /-- There is one more than there are segments. -/
  length : boundaries.length = segments + 1
  /-- Each is repeated as often as the degree says. -/
  values : c.knots.values = boundaries.flatMap (List.replicate c.degree)
  /-- The segments share their ends. -/
  count : c.pointCount = c.degree * segments + 1

section Segmented

variable {boundaries : List K} {segments : Nat}

/-- Every control point belongs to a segment. -/
theorem Segmented.exists_segment (h : Segmented c boundaries segments) (degree : 0 < c.degree)
    (pos : 0 < segments) {i : Nat} (hi : i < c.pointCount) :
    ∃ k < segments, ∃ r ≤ c.degree, i = c.degree * k + r := by
  have count := h.count
  by_cases last : i = c.degree * segments
  · refine ⟨segments - 1, by omega, c.degree, le_rfl, ?_⟩
    rw [last, ← Nat.mul_succ, Nat.succ_eq_add_one, Nat.sub_add_cancel pos]
  · exact ⟨i / c.degree, Nat.div_lt_of_lt_mul (by omega), i % c.degree,
      (Nat.mod_lt _ degree).le, (Nat.div_add_mod _ _).symm⟩

/-- The span of a segment. -/
theorem Segmented.span (h : Segmented c boundaries segments) (sound : c.Sound) {k : Nat}
    (hk : k < segments) :
    c.degree ≤ c.degree * (k + 1) ∧ c.degree * (k + 1) < c.pointCount
      ∧ c.spline.knots.knot (c.degree * (k + 1)) = boundaries.getD k 0
      ∧ c.spline.knots.knot (c.degree * (k + 1) + 1) = boundaries.getD (k + 1) 0
      ∧ boundaries.getD k 0 < boundaries.getD (k + 1) 0 := by
  have order := sound.two_le_order
  have degree : c.degree = c.order - 1 := rfl
  have count := h.count
  have length := h.length
  have room : k + 1 < boundaries.length := by omega
  have reach := Nat.mul_le_mul_left c.degree (show k + 1 ≤ segments from hk)
  refine ⟨Nat.le_mul_of_pos_right _ (Nat.succ_pos k), by omega, ?_, ?_, ?_⟩
  · rw [← knot_segment sound h.values (j := k) (q := c.degree - 1) (by omega) (by omega)]
    congr 1
    rw [Nat.mul_succ]
    omega
  · exact knot_segment sound h.values (q := 0) room (by omega)
  · rw [List.getD_eq_getElem _ _ (by omega), List.getD_eq_getElem _ _ room]
    exact List.pairwise_iff_getElem.1 h.increasing _ _ _ _ (Nat.lt_succ_self k)

/-- The points of a segment are values of the form of its span at its two ends. -/
theorem Segmented.getD_vectors (h : Segmented c boundaries segments) (sound : c.Sound) {d p : Nat}
    (degree : c.degree = p) {F : Pieces K d p}
    (follows : Follows c.spline.knots c.points.vectors F) {k r : Nat} (hk : k < segments) {t : K}
    (low : boundaries.getD k 0 < t) (high : t < boundaries.getD (k + 1) 0) (hr : r ≤ p) :
    c.points.vectors.getD (p * k + r) []
      = Point.ofVec (F t (Multiset.replicate (p - r) (boundaries.getD k 0)
        + Multiset.replicate r (boundaries.getD (k + 1) 0))) := by
  subst degree
  obtain ⟨reach, inside, start, finish, -⟩ := h.span sound hk
  have length := h.length
  have next : c.degree * (k + 1) = c.degree * k + c.degree := Nat.mul_succ _ _
  rw [follows _ reach inside t (by rwa [start]) (by rwa [finish]) _ (by omega) (by omega),
      stretch_segment sound h.values (by omega) hr]

end Segmented

/-- The spans of the split curve are its segments. -/
theorem Regular.segmented (h : e.Regular) (full : e.Full) (hc : c.Regular) (keeps : Keeps c e)
    (member : ∀ u, u ∈ e.knots.values ↔ u ∈ c.knots.domainKnots c.order) :
    Segmented e c.spanVector c.spanCount := by
  have values := h.values_of_full full hc keeps.degree member
  exact
    { increasing := hc.pairwise_spanVector
      length := hc.length_spanVector
      values := keeps.degree ▸ values
      count := keeps.degree ▸ h.pointCount_of_full hc keeps.order values }

/-! ## §5. The class of full knots. -/

/-- Full knots clamp both ends. -/
theorem Regular.isClamped_of_full (h : c.Regular) (full : c.Full) (side : CurveEnd) :
    c.isClamped side = true := by
  obtain ⟨two, enough, size, degree⟩ := h.counts
  cases side with
  | start =>
      have first : c.knots.count c.domain.1 = c.degree := full _ (c.knots.knot_mem (by omega))
      have split := KnotVector.countUpTo_eq c.knots c.domain.1
      have upTo := h.countUpTo_start
      have front : c.knots.knot 0 = c.domain.1 :=
        (h.ordered.knot_eq_iff (by omega)).2 ⟨by omega, by omega⟩
      exact isClamped_start_iff.2 front
  | finish =>
      have last : c.knots.count c.domain.2 = c.degree := full _ (c.knots.knot_mem (by omega))
      have split := KnotVector.countUpTo_eq c.knots c.domain.2
      have below := h.countBelow_finish
      have back : c.knots.knot (c.knots.size - 1) = c.domain.2 :=
        (h.ordered.knot_eq_iff (by omega)).2 ⟨by omega, by omega⟩
      exact beq_iff_eq.2 back

/-- The knots strictly inside the domain stand between its ends. -/
theorem Regular.interior_eq (h : c.Regular) :
    (c.knots.values.drop (c.order - 1)).take (c.pointCount - c.order) = c.interior := by
  obtain ⟨two, enough, size, degree⟩ := h.counts
  have length : c.knots.values.length = c.pointCount + c.order - 2 := size
  have inner := congrArg (fun knots => (knots.drop 1).dropLast) h.domainKnots_eq
  simp only [List.drop_one, List.tail_cons, List.dropLast_concat, KnotVector.domainKnots] at inner
  rw [← inner, ← List.drop_one, List.drop_take, List.drop_drop, List.dropLast_eq_take,
      List.take_take, List.length_take, List.length_drop,
      show c.order - 2 + 1 = c.order - 1 by omega]
  exact congrArg₂ _ (by omega) rfl

variable [IsStrictOrderedRing K]

/-- Knots that are repeated are not evenly spaced. -/
theorem Regular.not_isSpacedBy_of_full (h : c.Regular) (full : c.Full) (several : 2 ≤ c.degree)
    (inner : c.order < c.pointCount) {delta : K} (pos : 0 < delta) :
    KnotVector.isSpacedBy delta (c.knots.domainKnots c.order) = false := by
  have interior := h.interior_eq
  have order := h.two_le_order
  have size : c.knots.values.length = c.pointCount + c.order - 2 := h.knotCount_eq
  obtain ⟨m, ms, runs⟩ : ∃ m ms, KnotVector.runs c.interior = m :: ms := by
    refine List.exists_cons_of_ne_nil fun none => ?_
    have empty : c.interior = [] := by
      rw [← KnotVector.flatMap_runs c.interior, none]
      rfl
    have length := congrArg List.length interior
    rw [empty, List.length_take, List.length_drop, List.length_nil] at length
    omega
  have hm : m ∈ KnotVector.runs c.interior := runs ▸ List.mem_cons_self
  have count : m.multiplicity = c.degree := by
    rw [← h.toSound.count_of_mem_runs_interior hm,
        full _ (List.mem_filter.1 (KnotVector.knot_mem_of_mem_runs hm)).1]
  obtain ⟨n, copies⟩ : ∃ n, m.multiplicity = n + 2 := ⟨m.multiplicity - 2, by omega⟩
  have twice : ∃ rest, c.interior = m.knot :: m.knot :: rest := by
    refine ⟨List.replicate n m.knot ++ ms.flatMap KnotMultiplicity.occurrences, ?_⟩
    rw [← KnotVector.flatMap_runs c.interior, runs, List.flatMap_cons,
        KnotMultiplicity.occurrences, copies]
    rfl
  obtain ⟨rest, twice⟩ := twice
  have pair : (m.knot, m.knot) ∈ Sequence.neighbours (c.knots.domainKnots c.order) := by
    rw [h.domainKnots_eq, twice]
    simp [Sequence.neighbours]
  have step : ¬Scalar.abs (m.knot - m.knot - delta) ≤ delta * (1 / ((1000000 : Nat) : K)) := by
    rw [Scalar.abs_eq, sub_self, zero_sub, abs_neg, abs_of_pos pos, not_le]
    exact mul_lt_of_lt_one_right pos (by norm_num)
  exact List.all_eq_false.2 ⟨_, pair, by simpa only [decide_eq_true_eq] using step⟩

/-- The end spans have a positive length. -/
theorem Regular.endSpacing_pos (h : c.Regular) : 0 < c.knots.endSpacing c.order := by
  have size : c.knots.size = c.pointCount + c.order - 2 := h.knotCount_eq
  have order := h.two_le_order
  have first := h.first_span
  have last := h.last_span
  rw [KnotVector.endSpacing, show c.knots.size + 2 - c.order = c.pointCount by omega,
      Scalar.half_eq]
  linarith

/-- **Full knots are classified as Bézier spans.** -/
theorem Regular.hasBezierSpans_of_full (h : c.Regular) (full : c.Full) :
    c.hasBezierSpans = true := by
  obtain ⟨two, enough, size, degree⟩ := h.counts
  have count : c.knots.size + 2 - c.order = c.pointCount := by omega
  have ordered := (KnotVector.isNonDecreasing_iff _).2 h.ordered
  have domain : ¬(c.knots.domain c.order).2 ≤ (c.knots.domain c.order).1 := not_le.2 h.domain_lt
  have start : c.knots.isClamped c.order .start = true := h.isClamped_of_full full .start
  have finish : c.knots.isClamped c.order .finish = true := h.isClamped_of_full full .finish
  have interior := h.interior_eq
  refine beq_iff_eq.2 ?_
  unfold knotStyle KnotVector.style
  dsimp only
  rw [count, if_neg (by simp only [ordered]; simp; omega), if_neg domain,
      if_neg (by simp [start, finish])]
  split_ifs with line spaced runs
  · rfl
  · -- copies of a knot are no positive step apart
    exfalso
    have domainKnots := h.not_isSpacedBy_of_full full (by omega) (by omega) h.endSpacing_pos
    rw [KnotVector.domainKnots, count] at domainKnots
    rw [spaced] at domainKnots
    cases domainKnots
  · rfl
  · exfalso
    refine runs (List.all_eq_true.2 fun m hm => beq_iff_eq.2 ?_)
    rw [interior] at hm
    have inside := KnotVector.knot_mem_of_mem_runs hm
    rw [← h.toSound.count_of_mem_runs_interior hm, full _ (List.mem_filter.1 inside).1, degree]

/-! ## §6. The split curve. -/

section Split

variable [Precision K] [Precision.Exact K] [Analytic K]

/-- **Splitting a valid curve succeeds**: it gives the curve on full knots, which are those of
the domain, and scales the control vectors on demand. -/
theorem exists_split (valid : c.isValid = true) (count : c.order < countLimit) :
    ∃ e, (∀ unit, c.splitBezier unit = ⟨if unit then e.unitEnds else e, none⟩) ∧ e.Regular
      ∧ Keeps c e ∧ e.Full ∧ ∀ u, u ∈ e.knots.values ↔ u ∈ c.knots.domainKnots c.order := by
  have regular := regular_of_isValid valid
  obtain ⟨b, ok, -, keeps, -, -, -, values⟩ := regular.clampEnds
  have clamped := regular.regular_clampEnds ok
  have limit : ¬countLimit ≤ b.degree := by
    have degree : b.degree = b.order - 1 := rfl
    have order := keeps.order
    omega
  obtain ⟨none, kept, perm⟩ | ⟨above, -⟩ :=
    clamped.toSound.insertable_missingKnots.insertEach clamped.toSound
  · refine ⟨(b.insertEach b.missingKnots).curve, fun unit => ?_, clamped.insertEach _,
      keeps.trans kept, regular.full_insertEach ok none, fun u => ?_⟩
    · rcases splitBezier_cases c unit with ⟨e, error, -⟩ | ⟨b', -, ok', ⟨-, above, -⟩ | ⟨-, same⟩⟩
      · rw [validate_eq_ok_iff.2 valid] at error
        cases error
      · exact absurd (keeps.degree ▸ above) limit
      · cases ok'.symm.trans ok
        exact same
    · have degree : 0 < c.degree := regular.toSound.degree_pos
      have old : u ∈ b.knots.values ↔ u ∈ c.knots.domainKnots c.order := by
        rw [values, regular.domainKnots_eq]
        simp only [List.mem_append, List.mem_replicate, List.mem_cons, interior]
        grind
      rw [perm.mem_iff, List.mem_append, old]
      refine or_iff_left_of_imp fun new => old.1 ?_
      obtain ⟨m, hm, copy⟩ := List.mem_flatMap.1 new
      obtain rfl := List.eq_of_mem_replicate copy
      obtain ⟨m', hm', rfl⟩ := List.mem_map.1 hm
      exact (List.mem_filter.1 (KnotVector.knot_mem_of_mem_runs (List.mem_filter.1 hm').1)).1
  · exact absurd above limit

/-- **Splitting into Bézier spans keeps the curve.**  Order, rational flag and domain stay,
each distinct knot of the domain is repeated as often as the degree says, and the value at
every parameter of the domain is the same. -/
theorem splitBezier_keeps_curve (valid : c.isValid = true) (count : c.order < countLimit) :
    ∃ e, c.splitBezier false = ⟨e, none⟩ ∧ e.dimension = c.dimension ∧ e.order = c.order
      ∧ e.isRational = c.isRational ∧ e.domain = c.domain
      ∧ e.knots.values
        = (c.knots.domainKnots c.order).dedup.flatMap (List.replicate c.degree)
      ∧ e.pointCount = c.degree * c.spanCount + 1 ∧ e.hasBezierSpans = true
      ∧ ∀ t, c.domain.1 ≤ t → t ≤ c.domain.2 →
          e.definedVector t = c.definedVector t ∧ e.definedAt t = c.definedAt t := by
  have regular := regular_of_isValid valid
  obtain ⟨e, split, regular', keeps, full, member⟩ := exists_split valid count
  have values := regular'.values_of_full full regular keeps.degree member
  refine ⟨e, split false, keeps.dimension, keeps.order, keeps.rational, keeps.domain, ?_,
    ?_, regular'.hasBezierSpans_of_full full, fun t h₀ h₁ =>
      ⟨keeps.definedVector_eq regular.toSound regular'.toSound regular.domain_lt h₀ h₁,
        keeps.definedAt_eq regular.toSound regular'.toSound regular.domain_lt h₀ h₁⟩⟩
  · rw [values, regular.spanVector_eq_dedup]
  · exact regular'.pointCount_of_full regular keeps.order values

end Split

/-- A rational curve with an unclamped start, on two spans. -/
theorem splitBezier_keeps_openStart :
    openStart.isValid = true ∧ openStart.order < countLimit
      ∧ ∃ e, openStart.splitBezier false = ⟨e, none⟩ ∧ e.domain = (1, 3)
        ∧ e.knots.values = [1, 1, 2, 2, 3, 3] ∧ e.pointCount = 5 ∧ e.hasBezierSpans = true
        ∧ e.definedAt (3 / 2) = openStart.definedAt (3 / 2) := by
  have valid : openStart.isValid = true := by decide +kernel
  have count : openStart.order < countLimit := by decide
  obtain ⟨e, split, -, -, -, domain, values, points, style, value⟩ :=
    splitBezier_keeps_curve valid count
  refine ⟨valid, count, e, split, domain, values.trans ?_, points.trans ?_, style,
    (value (3 / 2) ?_ ?_).2⟩ <;> decide +kernel

end Curve

end RationalSpline
