/-
  RationalSpline.Proofs.Splitting
  ───────────────────────────────
  SPLITTING INTO BÉZIER SPANS.

  The knots that are missing lie inside the domain, are distinct, and lack no more than
  their insertion is allowed to add.  So no insertion is refused, afterwards every knot
  has full multiplicity, and the control points fall into segments of the degree: the
  corners to which unit weights are given are those of the spans.
-/
import RationalSpline.Proofs.Breaks
import RationalSpline.Proofs.FractionalMap

namespace RationalSpline.Curve

variable {K : Type} [Field K] [LinearOrder K] {c e : Curve K}

/-! ## §1. Several insertions. -/

/-- What every insertion keeps, several keep, up to the first that is refused. -/
theorem insertEach_keeps {P : Curve K → Prop}
    (step : ∀ {c e : Curve K} {u : K} {n : Nat}, P c → c.insertKnot u n = .ok e → P e)
    (ms : List (KnotMultiplicity K)) (h : P c) : P (c.insertEach ms).curve := by
  induction ms generalizing c with
  | nil => exact h
  | cons m ms ih =>
      rw [insertEach]
      cases ok : c.insertKnot m.knot m.multiplicity with
      | error e => exact h
      | ok e => exact ih (step h ok)

section Sound

variable [IsStrictOrderedRing K]

theorem Sound.insertKnot (h : c.Sound) {u : K} {n : Nat} (ok : c.insertKnot u n = .ok e) :
    e.Sound := by
  obtain ⟨start, finish, room, rfl⟩ := h.inside_of_insertKnot ok
  exact (h.insertTimes start.le finish fun _ => room).1

theorem Sound.insertEach (h : c.Sound) (ms : List (KnotMultiplicity K)) :
    (c.insertEach ms).curve.Sound :=
  insertEach_keeps (fun h ok => h.insertKnot ok) ms h

theorem Regular.insertEach (h : c.Regular) (ms : List (KnotMultiplicity K)) :
    (c.insertEach ms).curve.Regular :=
  insertEach_keeps (fun h ok => h.insertKnot ok) ms h

end Sound

section Insertable

variable {α : Type} [Scalar α] {c e : Curve α}

/-- Knots that may all be inserted: inside the domain, distinct, and with room for them. -/
structure Insertable (c : Curve α) (ms : List (KnotMultiplicity α)) : Prop where
  /-- Something is inserted. -/
  pos : ∀ m ∈ ms, 0 < m.multiplicity
  /-- The knots lie inside the domain. -/
  inside : ∀ m ∈ ms, c.domain.1 < m.knot ∧ m.knot < c.domain.2
  /-- The degree has room for the copies. -/
  room : ∀ m ∈ ms, c.knots.count m.knot + m.multiplicity ≤ c.degree
  /-- No knot comes twice. -/
  distinct : ms.Pairwise fun m m' => (m.knot == m'.knot) = false

/-- Behind the first insertion the other knots may still be inserted. -/
theorem Insertable.tail {m : KnotMultiplicity α} {ms : List (KnotMultiplicity α)}
    (insertable : Insertable c (m :: ms)) (domain : e.domain = c.domain)
    (degree : e.degree = c.degree) (perm : e.knots.values.Perm (c.knots.values ++ m.occurrences)) :
    Insertable e ms where
  pos := fun x hx => insertable.pos x (List.mem_cons_of_mem _ hx)
  inside := fun x hx => by
    rw [domain]
    exact insertable.inside x (List.mem_cons_of_mem _ hx)
  room := fun x hx => by
    have other := List.rel_of_pairwise_cons insertable.distinct hx
    have same : e.knots.count x.knot = c.knots.count x.knot := by
      rw [KnotVector.count, perm.countP_eq, List.countP_append, KnotMultiplicity.occurrences,
          List.countP_replicate, if_neg (Bool.eq_false_iff.1 other)]
      rfl
    rw [degree, same]
    exact insertable.room x (List.mem_cons_of_mem _ hx)
  distinct := insertable.distinct.of_cons

theorem missingKnots_eq (c : Curve α) :
    c.missingKnots = ((KnotVector.runs c.interior).filter fun m =>
      decide (m.multiplicity < c.degree)).map fun m => ⟨m.knot, c.degree - m.multiplicity⟩ := rfl

/-- Only knots of the curve are missing. -/
theorem knot_mem_of_mem_missingKnots {m : KnotMultiplicity α} (h : m ∈ c.missingKnots) :
    m.knot ∈ c.knots.values := by
  obtain ⟨m', hm', rfl⟩ := List.mem_map.1 h
  exact (List.mem_filter.1 (KnotVector.knot_mem_of_mem_runs (List.mem_filter.1 hm').1)).1

variable [Scalar.Compares α]

/-- The interior has the copies of each of its knots. -/
theorem countP_interior {u : α} (inside : c.domain.1 < u ∧ u < c.domain.2) :
    c.interior.countP (· == u) = c.knots.count u := by
  rw [interior, List.countP_filter, KnotVector.count]
  refine List.countP_congr fun x _ => ?_
  simp only [Bool.and_eq_true, decide_eq_true_eq]
  refine and_iff_left_of_imp fun same => ?_
  obtain ⟨xu, ux⟩ := Scalar.Compares.beq_iff.1 same
  exact ⟨Scalar.lt_of_lt_of_le inside.1 ux, Scalar.lt_of_le_of_lt xu inside.2⟩

/-- **The missing knots of knots in order may all be inserted.** -/
theorem insertable_missingKnots (ordered : c.knots.values.Pairwise (· ≤ ·)) :
    Insertable c c.missingKnots := by
  have sorted : c.interior.Pairwise (· ≤ ·) := ordered.sublist List.filter_sublist
  obtain ⟨distinct, counts⟩ := KnotVector.runs_of_pairwise sorted fun x hx =>
    (Scalar.Compares.le_self (Scalar.le_of_lt (between_of_mem_interior hx).1)).2
  refine ⟨fun m hm => ?_, fun m hm => ?_, fun m hm => ?_, ?_⟩
  · obtain ⟨m', hm', rfl⟩ := List.mem_map.1 hm
    exact Nat.sub_pos_of_lt (of_decide_eq_true (List.mem_filter.1 hm').2)
  · obtain ⟨m', hm', rfl⟩ := List.mem_map.1 hm
    exact between_of_mem_interior (x := m'.knot)
      (KnotVector.knot_mem_of_mem_runs (List.mem_filter.1 hm').1)
  · obtain ⟨m', hm', rfl⟩ := List.mem_map.1 hm
    obtain ⟨run, less⟩ := List.mem_filter.1 hm'
    have bound := of_decide_eq_true less
    have count := counts m' run
    rw [countP_interior (between_of_mem_interior (KnotVector.knot_mem_of_mem_runs run))] at count
    show c.knots.count m'.knot + (c.degree - m'.multiplicity) ≤ c.degree
    omega
  · exact List.pairwise_map.2 ((distinct.imp Scalar.beq_eq_false_of_lt).sublist
      List.filter_sublist)

end Insertable

section Run

variable [IsStrictOrderedRing K]

/-- Inside the domain, a knot with room for its copies is refused only where their number is
no count. -/
theorem Sound.insertKnot_eq (h : c.Sound) {u : K} {n : Nat} (pos : 0 < n)
    (start : c.domain.1 < u) (finish : u < c.domain.2) (room : c.knots.count u + n ≤ c.degree) :
    c.insertKnot u n = .ok (c.withSpline (c.spline.insertTimes u n))
      ∨ countLimit ≤ c.degree ∧ c.insertKnot u n = .error .undefined := by
  by_cases limit : c.knots.count u + n < countLimit
  · exact .inl (h.insertKnot_eq_ok_iff.2 ⟨pos, ⟨start, finish⟩, room, limit, rfl⟩)
  · exact .inr ⟨(not_lt.1 limit).trans room,
      h.insertKnot_eq_undefined_iff.2 ⟨pos, ⟨start.le, finish.le⟩, not_lt.1 limit⟩⟩

/-- The knots after an insertion are the old ones with the new copies. -/
theorem Sound.perm_insertTimes (h : c.Sound) (m : KnotMultiplicity K)
    (start : c.domain.1 < m.knot) (finish : m.knot < c.domain.2)
    (room : c.spline.knots.count m.knot + m.multiplicity ≤ c.degree) :
    (c.withSpline (c.spline.insertTimes m.knot m.multiplicity)).knots.values.Perm
      (c.knots.values ++ m.occurrences) := by
  obtain ⟨-, -, -, values⟩ := h.insertTimes start.le finish fun _ => room
  have whole : c.knots.values = (c.knots.values.filter fun k => decide (k ≤ m.knot))
      ++ c.knots.values.filter fun k => decide (m.knot < k) := by
    rw [h.ordered.filter_le_eq]
    exact h.ordered.values_eq m.knot
  rw [values]
  conv_rhs => rw [whole]
  rw [List.append_assoc, List.append_assoc]
  exact (List.perm_append_comm).append_left _

/-- **Insertable knots are inserted, unless a number of copies is no count.** -/
theorem Insertable.insertEach {ms : List (KnotMultiplicity K)} (h : c.Sound)
    (insertable : Insertable c ms) :
    ((c.insertEach ms).failure = none
        ∧ Keeps c (c.insertEach ms).curve
        ∧ (c.insertEach ms).curve.knots.values.Perm
          (c.knots.values ++ ms.flatMap KnotMultiplicity.occurrences))
      ∨ countLimit ≤ c.degree ∧ (c.insertEach ms).failure = some .undefined := by
  induction ms generalizing c with
  | nil => exact .inl ⟨rfl, Keeps.refl c, by simp [Curve.insertEach]⟩
  | cons m ms ih =>
      obtain ⟨start, finish⟩ := insertable.inside m List.mem_cons_self
      rw [Curve.insertEach]
      rcases h.insertKnot_eq (insertable.pos m List.mem_cons_self) start finish
        (insertable.room m List.mem_cons_self) with ok | ⟨limit, undefined⟩
      · obtain ⟨-, -, room, -⟩ := h.inside_of_insertKnot ok
        obtain ⟨sound, keeps, -, -⟩ := h.insertTimes start.le finish fun _ => room
        have perm := h.perm_insertTimes m start finish room
        rw [ok, Outcome.ofResult_ok, Outcome.andThen_none]
        rcases ih sound (insertable.tail keeps.domain keeps.degree perm) with
          ⟨none, kept, values⟩ | ⟨limit, undefined⟩
        · refine .inl ⟨none, keeps.trans kept, ?_⟩
          rw [List.flatMap_cons, ← List.append_assoc]
          exact values.trans (perm.append_right _)
        · exact .inr ⟨keeps.degree ▸ limit, undefined⟩
      · rw [undefined]
        exact .inr ⟨limit, rfl⟩

end Run

/-! ## §2. The knots that are missing. -/

theorem Sound.pairwise_runs_interior (h : c.Sound) :
    (KnotVector.runs c.interior).Pairwise fun m m' => m.knot < m'.knot :=
  KnotVector.pairwise_runs (h.ordered.sublist List.filter_sublist)

/-- The interior has the copies of each of its knots. -/
theorem count_interior {u : K} (inside : c.domain.1 < u ∧ u < c.domain.2) :
    c.interior.count u = c.knots.count u := countP_interior inside

theorem Sound.count_of_mem_runs_interior (h : c.Sound) {m : KnotMultiplicity K}
    (hm : m ∈ KnotVector.runs c.interior) : c.knots.count m.knot = m.multiplicity := by
  rw [← count_interior (between_of_mem_interior (KnotVector.knot_mem_of_mem_runs hm))]
  exact KnotVector.count_of_mem_runs (h.ordered.sublist List.filter_sublist) hm

theorem Sound.insertable_missingKnots (h : c.Sound) : Insertable c c.missingKnots :=
  Curve.insertable_missingKnots h.ordered

/-- Each distinct knot lacks what full multiplicity wants. -/
theorem Regular.count_missingKnots (h : c.Regular) {u : K}
    (inside : c.domain.1 < u ∧ u < c.domain.2) (member : u ∈ c.knots.values) :
    c.knots.count u + (c.missingKnots.flatMap KnotMultiplicity.occurrences).count u
      = c.degree := by
  have interior : u ∈ c.interior := List.mem_filter.2 ⟨member, decide_eq_true inside⟩
  rw [← KnotVector.flatMap_runs c.interior, List.mem_flatMap] at interior
  obtain ⟨m, hm, copy⟩ := interior
  obtain rfl := List.eq_of_mem_replicate copy
  have bound := h.count_le m.knot
  rw [h.toSound.count_of_mem_runs_interior hm] at bound ⊢
  have distinct := h.toSound.insertable_missingKnots.distinct.imp ne_of_beq_false
  by_cases less : m.multiplicity < c.degree
  · have missing : (⟨m.knot, c.degree - m.multiplicity⟩ : KnotMultiplicity K) ∈ c.missingKnots :=
      List.mem_map.2 ⟨m, List.mem_filter.2 ⟨hm, decide_eq_true less⟩, rfl⟩
    have copies : (c.missingKnots.flatMap KnotMultiplicity.occurrences).count m.knot
        = c.degree - m.multiplicity := KnotVector.count_flatMap_of_mem distinct missing
    omega
  · rw [KnotVector.count_flatMap_of_forall_ne]
    · omega
    · intro x hx same
      obtain ⟨y, hy, rfl⟩ := List.mem_map.1 hx
      obtain ⟨run, less'⟩ := List.mem_filter.1 hy
      -- a knot has only one run
      have count := h.toSound.count_of_mem_runs_interior hm
      rw [← show y.knot = m.knot from same, h.toSound.count_of_mem_runs_interior run] at count
      exact less (count ▸ of_decide_eq_true less')

/-! ## §3. Bézier spans. -/

/-- Every knot is repeated as often as the degree says. -/
def Full (c : Curve K) : Prop := ∀ u ∈ c.knots.values, c.knots.count u = c.degree

/-- The knots then fall into runs of the degree. -/
theorem degree_dvd_of_full (h : c.Full) : c.degree ∣ c.knots.size := by
  have total := List.sum_map_count_dedup_eq_length c.knots.values
  rw [List.map_congr_left (g := fun _ => c.degree) fun u hu => by
    rw [← KnotVector.count_eq_list_count]
    exact h u (List.mem_dedup.1 hu), List.map_const', List.sum_replicate] at total
  exact ⟨_, by rw [KnotVector.size, ← total, smul_eq_mul, Nat.mul_comm]⟩

/-- So do the control points behind the first. -/
theorem Sound.degree_dvd_of_full (h : c.Sound) (full : c.Full) :
    c.degree ∣ c.pointCount - 1 := by
  obtain ⟨two, enough, size, degree⟩ := h.counts
  have whole : c.knots.size = c.pointCount - 1 + c.degree := by omega
  have runs := Curve.degree_dvd_of_full full
  rw [whole] at runs
  exact (Nat.dvd_add_left (dvd_refl _)).1 runs

section Spans

variable [IsStrictOrderedRing K]

/-- Once the ends are clamped, those of the domain have full multiplicity. -/
theorem Regular.count_domain_clampEnds (h : c.Regular) {b : Curve K} (ok : c.clampEnds = .ok b)
    {v : K} (end_ : v = b.domain.1 ∨ v = b.domain.2) : b.knots.count v = b.degree := by
  obtain ⟨e, ok', -, keeps, -, -, -, values⟩ := h.clampEnds
  cases ok'.symm.trans ok
  have lt := h.domain_lt
  rw [keeps.domain] at end_
  have interior : (c.knots.values.filter fun k =>
      decide (c.domain.1 < k ∧ k < c.domain.2)).count v = 0 := by
    refine List.count_eq_zero.2 fun hk => ?_
    have between := of_decide_eq_true (List.mem_filter.1 hk).2
    rcases end_ with rfl | rfl
    · exact lt_irrefl _ between.1
    · exact lt_irrefl _ between.2
  rw [KnotVector.count_eq_list_count, values, List.count_append, List.count_append, interior,
      List.count_replicate, List.count_replicate, keeps.degree]
  rcases end_ with rfl | rfl
  · simp [lt.ne']
  · simp [lt.ne]

omit [IsStrictOrderedRing K] in
/-- The ends of the domain are not among the missing knots. -/
theorem Regular.count_missingKnots_domain {b : Curve K} (h : b.Regular) {v : K}
    (end_ : v = b.domain.1 ∨ v = b.domain.2) :
    (b.missingKnots.flatMap KnotMultiplicity.occurrences).count v = 0 := by
  refine KnotVector.count_flatMap_of_forall_ne fun m hm same => ?_
  have between := h.toSound.insertable_missingKnots.inside m hm
  rw [same] at between
  rcases end_ with rfl | rfl
  · exact lt_irrefl _ between.1
  · exact lt_irrefl _ between.2

omit [IsStrictOrderedRing K] in
/-- What is added are copies of knots of the curve. -/
theorem mem_of_mem_missingKnots {b : Curve K} {v : K}
    (h : v ∈ b.missingKnots.flatMap KnotMultiplicity.occurrences) : v ∈ b.knots.values := by
  obtain ⟨m, hm, copy⟩ := List.mem_flatMap.1 h
  obtain rfl := List.eq_of_mem_replicate copy
  exact knot_mem_of_mem_missingKnots hm

/-- **Once the missing knots are inserted, every knot has full multiplicity.** -/
theorem Regular.full_insertEach (h : c.Regular) {b : Curve K} (ok : c.clampEnds = .ok b)
    (none : (b.insertEach b.missingKnots).failure = none) :
    (b.insertEach b.missingKnots).curve.Full := by
  have regular := h.regular_clampEnds ok
  obtain ⟨-, kept, perm⟩ | ⟨-, undefined⟩ :=
    regular.toSound.insertable_missingKnots.insertEach regular.toSound
  · intro u hu
    rw [KnotVector.count_eq_list_count, perm.count_eq, List.count_append, kept.degree,
        ← KnotVector.count_eq_list_count]
    -- an end has full multiplicity and misses nothing, a knot inside gets what it misses
    by_cases end_ : u = b.domain.1 ∨ u = b.domain.2
    · have count := h.count_domain_clampEnds ok end_
      have missing := regular.count_missingKnots_domain end_
      omega
    · obtain ⟨first, last⟩ := not_or.1 end_
      have member : u ∈ b.knots.values :=
        (List.mem_append.1 (perm.mem_iff.1 hu)).elim id mem_of_mem_missingKnots
      have within := (h.toSound.within_clampEnds h.domain_lt ok).2.2 u member
      exact regular.count_missingKnots ⟨lt_of_le_of_ne within.1 (Ne.symm first),
        lt_of_le_of_ne within.2 last⟩ member
  · rw [undefined] at none
    cases none

end Spans

/-! ## §4. Unit weights at the corners. -/

section Corners

variable [IsStrictOrderedRing K]

/-- The points of a segment are scaled, by positive factors if the first and the ratio are. -/
theorem exists_scale_of_mem_scaleSegment {ratio factor : K} {ps : List (Point K)} {x : Point K}
    (hx : x ∈ scaleSegment ratio factor ps) :
    ∃ p ∈ ps, ∃ a, x = Point.scale p a ∧ (0 < ratio → 0 < factor → 0 < a) := by
  induction ps generalizing factor with
  | nil => simp [scaleSegment] at hx
  | cons p ps ih =>
      rw [scaleSegment] at hx
      rcases List.mem_cons.1 hx with rfl | hx
      · exact ⟨p, List.mem_cons_self, _, rfl, fun hr hf => div_pos hf hr⟩
      · obtain ⟨q, hq, a, same, pos⟩ := ih hx
        exact ⟨q, List.mem_cons_of_mem _ hq, a, same, fun hr hf => pos hr (div_pos hf hr)⟩

omit [IsStrictOrderedRing K] in
theorem length_scaleSegment (ratio factor : K) (ps : List (Point K)) :
    (scaleSegment ratio factor ps).length = ps.length := by
  induction ps generalizing factor with
  | nil => rfl
  | cons p ps ih => rw [scaleSegment, List.length_cons, List.length_cons, ih]

variable [Analytic K]

omit [IsStrictOrderedRing K] in
theorem length_unitCorners {degree segments i : Nat} {weights : List K} {ps : List (Point K)}
    (length : ps.length = degree * segments) :
    (unitCorners degree weights segments i ps).length = ps.length := by
  induction segments generalizing i ps with
  | zero =>
      rw [Nat.mul_zero] at length
      rw [length]
      rfl
  | succ segments ih =>
      rw [Nat.mul_succ] at length
      rw [unitCorners, List.length_append, length_scaleSegment,
          ih (by rw [List.length_drop]; omega), List.length_take, List.length_drop]
      omega

/-- Every point is scaled, by a positive factor if the weights of the corners are positive. -/
theorem exists_scale_of_mem_unitCorners {degree segments i : Nat} {weights : List K}
    {ps : List (Point K)} {x : Point K} (hx : x ∈ unitCorners degree weights segments i ps) :
    ∃ p ∈ ps, ∃ a, x = Point.scale p a
      ∧ ((∀ x y : K, 0 < x → 0 < Analytic.pow x y) → (∀ w ∈ weights, 0 < w) →
        i + degree * segments < weights.length → 0 < a) := by
  induction segments generalizing i ps with
  | zero => simp [unitCorners] at hx
  | succ segments ih =>
      rw [unitCorners] at hx
      rcases List.mem_append.1 hx with hx | hx
      · obtain ⟨p, hp, a, same, positive⟩ := exists_scale_of_mem_scaleSegment hx
        refine ⟨p, List.mem_of_mem_take hp, a, same, fun powers pos inside => ?_⟩
        rw [Nat.mul_succ] at inside
        have weight : ∀ j < weights.length, 0 < weights.getD j 0 := fun j hj => by
          rw [List.getD_eq_getElem _ _ hj]
          exact pos _ (List.getElem_mem hj)
        have first := weight i (by omega)
        exact positive (powers _ _ (div_pos (weight (i + degree) (by omega)) first))
          (div_pos zero_lt_one first)
      · obtain ⟨p, hp, a, same, positive⟩ := ih hx
        refine ⟨p, List.mem_of_mem_drop hp, a, same, fun powers pos inside => ?_⟩
        rw [Nat.mul_succ] at inside
        exact positive powers pos (by omega)

/-- **Unit weights at the corners of Bézier spans only scale the control vectors**, by positive
factors where the powers of positive numbers are positive. -/
theorem repointed_unitEnds (sized : ∀ x ∈ c.points.vectors, x.length = c.vectorSize)
    (segments : c.degree ∣ c.pointCount - 1) :
    Repointed c c.unitEnds ∧ ((∀ x y : K, 0 < x → 0 < Analytic.pow x y) → c.points.Positive →
      c.unitEnds.points.Positive) := by
  obtain ⟨dimension, order, points, knots⟩ := c
  cases points with
  | cartesian points => exact ⟨.refl sized, fun _ positive => positive⟩
  | homogeneous points =>
      cases points with
      | nil => exact ⟨.refl sized, fun _ positive => positive⟩
      | cons p rest =>
          have whole : rest.length = (order - 1) * (rest.length / (order - 1)) :=
            (Nat.mul_div_cancel' segments).symm
          refine ⟨⟨rfl, rfl, rfl, congrArg (· + 1) (length_unitCorners whole), fun x hx => ?_⟩,
            fun powers positive _ x hx => ?_⟩
          · rcases List.mem_cons.1 hx with rfl | hx
            · rw [Point.length_divide]
              exact sized p List.mem_cons_self
            · obtain ⟨q, hq, a, rfl, -⟩ := exists_scale_of_mem_unitCorners hx
              rw [Point.length_scale]
              exact sized q (List.mem_cons_of_mem _ hq)
          · have weights := ControlPoints.forall_weights_pos_iff.2 positive
            have pos := ControlPoints.positive_homogeneous.1 positive
            rcases List.mem_cons.1 hx with rfl | hx
            · have first := pos p List.mem_cons_self
              rw [show Point.divide p p.weight = Point.scale p (p.weight)⁻¹ from
                List.map_congr_left fun a _ => div_eq_mul_inv a _, Point.weight_scale,
                mul_inv_cancel₀ first.ne']
              exact zero_lt_one
            · obtain ⟨q, hq, a, rfl, factor⟩ := exists_scale_of_mem_unitCorners hx
              rw [Point.weight_scale]
              refine mul_pos (pos q (List.mem_cons_of_mem _ hq)) (factor powers weights ?_)
              rw [ControlPoints.length_weights]
              show 0 + (order - 1) * (rest.length / (order - 1)) < rest.length + 1
              omega

end Corners

/-! ## §5. The split curve. -/

section Split

variable [IsStrictOrderedRing K] [Precision K] [Precision.Spaced K]

/-- Splitting leaves the curve as it is, or inserts what is missing into the clamped curve. -/
theorem splitSpans_cases (c : Curve K) :
    (∃ e, c.validate = .error e ∧ c.splitSpans = ⟨c, some e⟩)
      ∨ ∃ b, c.isValid = true ∧ c.clampEnds = .ok b
        ∧ c.splitSpans = b.insertEach b.missingKnots := by
  unfold splitSpans
  cases valid : c.validate with
  | error e => exact .inl ⟨e, rfl, rfl⟩
  | ok r =>
      have valid' := validate_eq_ok_iff.1 valid
      obtain ⟨b, ok, -⟩ := (regular_of_isValid valid').clampEnds
      rw [ok]
      exact .inr ⟨b, valid', rfl, rfl⟩

variable [Analytic K]

/-- Splitting leaves the curve as it is, or gives the curve of which the missing knots are
inserted, with unit weights on demand if none of them was refused. -/
theorem splitBezier_cases (c : Curve K) (unit : Bool) :
    (∃ e, c.validate = .error e ∧ c.splitBezier unit = ⟨c, some e⟩)
      ∨ ∃ b, c.isValid = true ∧ c.clampEnds = .ok b
        ∧ (c.splitBezier unit = b.insertEach b.missingKnots
            ∧ countLimit ≤ c.degree ∧ (b.insertEach b.missingKnots).failure = some .undefined
          ∨ (b.insertEach b.missingKnots).failure = none
            ∧ c.splitBezier unit = ⟨if unit then (b.insertEach b.missingKnots).curve.unitEnds
                else (b.insertEach b.missingKnots).curve, none⟩) := by
  rcases splitSpans_cases c with ⟨e, error, split⟩ | ⟨b, valid, ok, split⟩
  · refine .inl ⟨e, error, ?_⟩
    rw [splitBezier, split]
    rfl
  · refine .inr ⟨b, valid, ok, ?_⟩
    have regular := (regular_of_isValid valid).regular_clampEnds ok
    rw [splitBezier, split, Outcome.andThen]
    rcases regular.toSound.insertable_missingKnots.insertEach regular.toSound with
      ⟨none, -⟩ | ⟨limit, undefined⟩
    · rw [none]
      exact .inr ⟨rfl, rfl⟩
    · obtain ⟨e, ok', -, keeps, -⟩ := (regular_of_isValid valid).clampEnds
      cases ok'.symm.trans ok
      rw [undefined]
      exact .inl ⟨rfl, keeps.degree ▸ limit, rfl⟩

theorem Sound.splitBezier (h : c.Sound) (unit : Bool) : (c.splitBezier unit).curve.Sound := by
  rcases splitBezier_cases c unit with ⟨e, -, same⟩ | ⟨b, valid, ok, ⟨same, -⟩ | ⟨none, same⟩⟩
  · rw [same]
    exact h
  · have regular := (regular_of_isValid valid).regular_clampEnds ok
    rw [same]
    exact regular.toSound.insertEach _
  · have regular := (regular_of_isValid valid).regular_clampEnds ok
    have sound := regular.toSound.insertEach b.missingKnots
    have full := (regular_of_isValid valid).full_insertEach ok none
    rw [same]
    cases unit with
    | false => exact sound
    | true => exact (repointed_unitEnds sound.sized (sound.degree_dvd_of_full full)).1.sound sound

/-- **The split curve is regular**, where powers of positive numbers are positive. -/
theorem Regular.splitBezier (h : c.Regular) {unit : Bool}
    (powers : unit = true → ∀ x y : K, 0 < x → 0 < Analytic.pow x y) :
    (c.splitBezier unit).curve.Regular := by
  rcases splitBezier_cases c unit with ⟨e, -, same⟩ | ⟨b, valid, ok, ⟨same, -⟩ | ⟨none, same⟩⟩
  · rw [same]
    exact h
  · rw [same]
    exact ((regular_of_isValid valid).regular_clampEnds ok).insertEach _
  · have regular := ((regular_of_isValid valid).regular_clampEnds ok).insertEach b.missingKnots
    have full := (regular_of_isValid valid).full_insertEach ok none
    rw [same]
    cases unit with
    | false => exact regular
    | true =>
        have repointed := repointed_unitEnds regular.sized (regular.degree_dvd_of_full full)
        exact repointed.1.regular regular (repointed.2 (powers rfl) regular.positive)

end Split

end RationalSpline.Curve
