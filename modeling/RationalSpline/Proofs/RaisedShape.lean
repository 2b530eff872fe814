/-
  RationalSpline.Proofs.RaisedShape
  ─────────────────────────────────
  HOW MANY POINTS A RAISED SPLINE HAS.

  Elevation goes from front to front.  `Front.Shaped` is what stays true of the counts
  and of the sizes of the vectors at every front, whatever the vectors hold; from it
  follows that the raised points fit the raised knots.
-/
import RationalSpline.Proofs.ElevatedForm

namespace RationalSpline.Spline

variable {K : Type} {d p : Nat}

/-! ## §1. Breaks. -/

/-- The breaks after the first: those inside repeat at most `p` times, the last is full. -/
inductive Full (p : Nat) : List (KnotMultiplicity K) → Prop
  /-- Behind the last break. -/
  | done : Full p []
  /-- The end of the domain. -/
  | last {m : KnotMultiplicity K} (full : m.multiplicity = p + 1) : Full p [m]
  /-- A break inside the domain. -/
  | inner {m m' : KnotMultiplicity K} {later : List (KnotMultiplicity K)}
      (pos : 0 < m.multiplicity) (le : m.multiplicity ≤ p) (rest : Full p (m' :: later)) :
      Full p (m :: m' :: later)

/-- All knots at the breaks. -/
def total (later : List (KnotMultiplicity K)) : Nat :=
  (later.flatMap KnotMultiplicity.occurrences).length

@[simp] theorem total_cons (m : KnotMultiplicity K) (later : List (KnotMultiplicity K)) :
    total (m :: later) = m.multiplicity + total later := by
  simp [total]

theorem Full.le_total {m : KnotMultiplicity K} {later : List (KnotMultiplicity K)}
    (h : Full p (m :: later)) : p + 1 ≤ total (m :: later) := by
  generalize hl : m :: later = l at h
  induction h generalizing m later with
  | done => simp at hl
  | last full => simp [full]
  | inner _ _ _ ih =>
      have := ih rfl
      rw [total_cons]
      omega

theorem Full.pos {m : KnotMultiplicity K} {later : List (KnotMultiplicity K)}
    (h : Full p (m :: later)) : 0 < m.multiplicity := by
  cases h <;> omega

theorem Full.tail {m : KnotMultiplicity K} {later : List (KnotMultiplicity K)}
    (h : Full p (m :: later)) : Full p later := by
  cases h with
  | last _ => exact Full.done
  | inner _ _ rest => exact rest

/-! ## §2. Sizes of vectors. -/

/-- All vectors of a list have the size `d`. -/
def AllSized (d : Nat) (points : List (Point K)) : Prop := ∀ x ∈ points, x.length = d

theorem AllSized.take {points : List (Point K)} (h : AllSized d points) (n : Nat) :
    AllSized d (points.take n) := fun x hx => h x (List.mem_of_mem_take hx)

theorem AllSized.drop {points : List (Point K)} (h : AllSized d points) (n : Nat) :
    AllSized d (points.drop n) := fun x hx => h x (List.mem_of_mem_drop hx)

theorem AllSized.append {points more : List (Point K)} (h : AllSized d points)
    (h' : AllSized d more) : AllSized d (points ++ more) := fun x hx =>
  (List.mem_append.1 hx).elim (h x) (h' x)

theorem AllSized.reverse {points : List (Point K)} (h : AllSized d points) :
    AllSized d points.reverse := fun x hx => h x (List.mem_reverse.1 hx)

theorem allSized_filterMap {rows : List (List (Point K))} {pick : List (Point K) → Option (Point K)}
    (picks : ∀ row x, pick row = some x → x ∈ row) (h : ∀ row ∈ rows, AllSized d row) :
    AllSized d (rows.filterMap pick) := by
  intro x hx
  obtain ⟨row, hrow, hpick⟩ := List.mem_filterMap.1 hx
  exact h row hrow x (picks row x hpick)

variable [Field K] [LinearOrder K]

theorem length_blendPairs (coefficients : List K) (points : List (Point K)) :
    (blendPairs coefficients points).length = min coefficients.length (points.length - 1) := by
  induction coefficients generalizing points with
  | nil => simp [blendPairs]
  | cons a rest ih =>
      match points with
      | [] => simp [blendPairs]
      | [_] => simp [blendPairs]
      | x :: y :: more =>
          rw [blendPairs, List.length_cons, ih]
          simp only [List.length_cons]
          omega

theorem AllSized.blendPairs {points : List (Point K)} (h : AllSized d points)
    (coefficients : List K) : AllSized d (blendPairs coefficients points) := by
  induction coefficients generalizing points with
  | nil => simp [Spline.blendPairs, AllSized]
  | cons a rest ih =>
      match points, h with
      | [], _ => simp [Spline.blendPairs, AllSized]
      | [_], _ => simp [Spline.blendPairs, AllSized]
      | x :: y :: more, h =>
          intro z hz
          rw [Spline.blendPairs] at hz
          rcases List.mem_cons.1 hz with rfl | hz
          · have hx := h x (by simp)
            have hy := h y (by simp)
            simp [hx, hy]
          · exact ih (fun w hw => h w (List.mem_cons_of_mem _ hw)) z hz

theorem AllSized.levels {points : List (Point K)} (h : AllSized d points)
    (coefficients : List K) (n : Nat) :
    ∀ row ∈ levels coefficients n points, AllSized d row := by
  induction n generalizing points with
  | zero =>
      intro row hrow
      obtain rfl : row = points := by simpa [Spline.levels] using hrow
      exact h
  | succ n ih =>
      intro row hrow
      rcases List.mem_cons.1 hrow with rfl | hrow
      · exact h
      · exact ih (h.blendPairs coefficients) row hrow

/-- No row of a triangle that has points enough is empty. -/
theorem levels_ne_nil {coefficients : List K} {n : Nat} {points : List (Point K)}
    (many : n ≤ coefficients.length) (enough : n < points.length) :
    ∀ row ∈ levels coefficients n points, row ≠ [] := by
  induction n generalizing points with
  | zero =>
      intro row hrow
      obtain rfl : row = points := by simpa [Spline.levels] using hrow
      exact List.ne_nil_of_length_pos enough
  | succ n ih =>
      intro row hrow
      rcases List.mem_cons.1 hrow with rfl | hrow
      · exact List.ne_nil_of_length_pos (by omega)
      · exact ih (by omega) (by rw [length_blendPairs]; omega) row hrow

@[simp] theorem sweep_nil (points : List (Point K)) : sweep [] points = points := by
  cases points <;> rfl

/-- What combinations of two points keep, a sweep keeps. -/
theorem forall_mem_sweep {Q : Point K → Prop}
    (closed : ∀ a x y, Q x → Q y → Q (Point.blend a x y)) {coefficients : List K}
    {points : List (Point K)} (h : ∀ x ∈ points, Q x)
    (short : coefficients.length < points.length) : ∀ x ∈ sweep coefficients points, Q x := by
  induction coefficients generalizing points with
  | nil => cases points <;> exact h
  | cons a rest ih =>
      cases points with
      | nil => exact h
      | cons x xs =>
          have short' : rest.length < xs.length := by simpa using short
          have tail : ∀ y ∈ sweep rest xs, Q y :=
            ih (fun y hy => h y (List.mem_cons_of_mem _ hy)) short'
          intro z hz
          rcases List.mem_cons.1 hz with rfl | hz
          · -- an entry after the last that is swept is there
            cases hrest : sweep rest xs with
            | nil =>
                have := length_sweep rest xs
                rw [hrest] at this
                simp only [List.length_nil] at this
                omega
            | cons y ys =>
                exact closed _ _ _ (tail y (by simp [hrest])) (h x List.mem_cons_self)
          · exact tail z hz

/-- So do several sweeps. -/
theorem forall_mem_sweeps {Q : Point K → Prop}
    (closed : ∀ a x y, Q x → Q y → Q (Point.blend a x y)) {coefficients : Nat → List K} {n : Nat}
    {points : List (Point K)} (h : ∀ x ∈ points, Q x)
    (length : ∀ i < n, (coefficients i).length = i + 1) (short : n < points.length) :
    ∀ x ∈ sweeps coefficients n points, Q x := by
  induction n with
  | zero => exact h
  | succ n ih =>
      have inner := ih (fun i hi => length i (by omega)) (by omega)
      refine forall_mem_sweep closed inner ?_
      rw [length n (by omega), length_sweeps]
      exact short

theorem AllSized.sweeps {coefficients : Nat → List K} {n : Nat} {points : List (Point K)}
    (h : AllSized d points) (length : ∀ i < n, (coefficients i).length = i + 1)
    (short : n < points.length) : AllSized d (sweeps coefficients n points) :=
  forall_mem_sweeps (fun a x y hx hy => by simp [hx, hy]) h length short

theorem AllSized.raisePolygon {points : List (Point K)} (h : AllSized d points)
    (rows : List (Nat × List K)) : AllSized d (raisePolygon d rows points) := by
  intro x hx
  obtain ⟨⟨first, shares⟩, _, rfl⟩ := List.mem_map.1 hx
  exact Point.length_combine _ fun y hy => h y (List.mem_of_mem_drop hy)

/-! ## §3. From front to front. -/

/-- The triangle over the segment that ends at `m`. -/
def Front.triangle (p : Nat) (front : Front K) (m : KnotMultiplicity K)
    (later : List (KnotMultiplicity K)) : List (List (Point K)) :=
  levels (((later.flatMap KnotMultiplicity.occurrences).take (p - m.multiplicity)).map
      fun k => (m.knot - front.knot) / (k - front.knot))
    (p - m.multiplicity) (front.segment.drop m.multiplicity)

/-- The Bézier points of the segment. -/
def Front.polygon (p : Nat) (front : Front K) (m : KnotMultiplicity K)
    (later : List (KnotMultiplicity K)) : List (Point K) :=
  front.segment.take m.multiplicity ++ (front.triangle p m later).filterMap List.head?

/-- The raised points of the segment from the front on, where the nearest knot stands for
all within `r` places. -/
def Front.mended (r p inc dimension : Nat) (front : Front K) (m : KnotMultiplicity K)
    (later : List (KnotMultiplicity K)) : List (Point K) :=
  mendAfter front m.knot r (raisePolygon dimension (shareRows p inc) (front.polygon p m later))

/-- The front at the end of the segment. -/
def Front.advance (r p inc dimension : Nat) (front : Front K) (m : KnotMultiplicity K)
    (later : List (KnotMultiplicity K)) : Front K where
  knot := m.knot
  added := p - m.multiplicity
  knotsBefore := List.replicate (p + inc - front.added) front.knot ++ front.knotsBefore
  pointsBefore :=
    ((front.mended r p inc dimension m later).take
        (p + inc - front.added / 2 - (p - m.multiplicity + 1) / 2)).reverse
      ++ mendBefore front m.knot
  segment :=
    ((front.triangle p m later).filterMap List.getLast?).reverse
      ++ front.pointsAfter.take m.multiplicity
  pointsAfter := front.pointsAfter.drop m.multiplicity

/-- The raised control points, where at each front the nearest knot stands for all within
the reach that is given for it. -/
def raiseWithin (reach : Front K → Nat) (p inc dimension : Nat) :
    List (KnotMultiplicity K) → Front K → List (Point K)
  | [], front => front.pointsBefore.reverse
  | m :: later, front =>
      raiseWithin reach p inc dimension later
        (front.advance (reach front) p inc dimension m later)

theorem raiseSegments_eq (p inc dimension : Nat) (later : List (KnotMultiplicity K))
    (front : Front K) :
    raiseSegments p inc dimension (shareRows p inc) later front
      = raiseWithin (fun front => p + inc - front.added) p inc dimension later front := by
  induction later generalizing front with
  | nil => rfl
  | cons m later ih => exact ih _

/-- What stays true of the counts and sizes at every front. -/
structure Front.Shaped (d p : Nat) (front : Front K) (later : List (KnotMultiplicity K)) :
    Prop where
  /-- At most the degree is added. -/
  added_le : front.added ≤ p
  /-- There are raised points up to the reach of the front. -/
  count : front.pointsBefore.length + (front.added + 1) / 2 = front.knotsBefore.length
  /-- The sweeps meet only points that are there. -/
  enough : front.added < front.knotsBefore.length
  /-- The raised points are vectors of the size of the others. -/
  sized : AllSized d front.pointsBefore
  /-- Before the end, there is a segment to raise. -/
  segment : later ≠ [] → front.segment.length = p + 1 ∧ AllSized d front.segment
  /-- Before the end, the points after it reach the end. -/
  after : later ≠ [] → front.pointsAfter.length + (p + 1) = total later
    ∧ AllSized d front.pointsAfter

theorem length_mended {r inc : Nat} {front : Front K} {m : KnotMultiplicity K}
    {later : List (KnotMultiplicity K)} :
    (front.mended r p inc d m later).length = p + inc - front.added / 2 := by
  simp only [Front.mended, mendAfter, length_sweeps, List.length_drop, length_raisePolygon,
    length_shareRows]
  omega

theorem length_kept {r inc : Nat} {front : Front K} {m : KnotMultiplicity K}
    {later : List (KnotMultiplicity K)} :
    ((front.mended r p inc d m later).take
        (p + inc - front.added / 2 - (p - m.multiplicity + 1) / 2)).length
      = p + inc - front.added / 2 - (p - m.multiplicity + 1) / 2 := by
  rw [List.length_take, length_mended]
  omega

theorem length_mendBefore {front : Front K} (b : K) :
    (mendBefore front b).length = front.pointsBefore.length := by
  simp [mendBefore]

/-- The vectors over the segment have the size of the others. -/
theorem Front.Shaped.allSized_triangle {front : Front K} {m : KnotMultiplicity K}
    {later : List (KnotMultiplicity K)} (h : front.Shaped d p (m :: later)) :
    ∀ row ∈ front.triangle p m later, AllSized d row :=
  ((h.segment (by simp)).2.drop _).levels _ _

/-- So have the Bézier points. -/
theorem Front.Shaped.allSized_polygon {front : Front K} {m : KnotMultiplicity K}
    {later : List (KnotMultiplicity K)} (h : front.Shaped d p (m :: later)) :
    AllSized d (front.polygon p m later) :=
  ((h.segment (by simp)).2.take _).append
    (allSized_filterMap (fun _ _ hx => List.mem_of_head? hx) h.allSized_triangle)

/-- Before the end of the domain every row of the triangle has points. -/
theorem Front.Shaped.triangle_ne_nil {front : Front K} {m : KnotMultiplicity K}
    {later : List (KnotMultiplicity K)} (h : front.Shaped d p (m :: later))
    (le : m.multiplicity ≤ p) (full : Full p (m :: later)) :
    ∀ row ∈ front.triangle p m later, row ≠ [] := by
  have reach : p - m.multiplicity ≤ (later.flatMap KnotMultiplicity.occurrences).length := by
    cases full with
    | last full => omega
    | inner _ _ rest =>
        have enough := rest.le_total
        rw [total] at enough
        omega
  have segment := (h.segment (by simp)).1
  exact levels_ne_nil (by rw [List.length_map, List.length_take]; omega)
    (by rw [List.length_drop]; omega)

/-- So have the points that the segment leaves behind it. -/
theorem Front.Shaped.allSized_mended {r inc : Nat} {front : Front K} {m : KnotMultiplicity K}
    {later : List (KnotMultiplicity K)} (h : front.Shaped d p (m :: later))
    (positive : p + inc ≠ 0) : AllSized d (front.mended r p inc d m later) :=
  ((h.allSized_polygon.raisePolygon _).drop _).sweeps (fun i _ => by simp) (by
    have added := h.added_le
    rw [List.length_drop, length_raisePolygon, length_shareRows]
    omega)

/-- The last edge of the triangle has a point of every row. -/
theorem Front.Shaped.length_edge {front : Front K} {m : KnotMultiplicity K}
    {later : List (KnotMultiplicity K)} (h : front.Shaped d p (m :: later))
    (le : m.multiplicity ≤ p) (full : Full p (m :: later)) :
    ((front.triangle p m later).filterMap List.getLast?).length = p - m.multiplicity + 1 := by
  rw [List.length_filterMap_eq_countP, List.countP_eq_length.2, Front.triangle, length_levels]
  intro row hrow
  rw [List.getLast?_isSome]
  exact h.triangle_ne_nil le full row hrow

theorem Front.length_pointsBefore_advance {r inc : Nat} (front : Front K)
    (m : KnotMultiplicity K) (later : List (KnotMultiplicity K)) :
    (front.advance r p inc d m later).pointsBefore.length
      = p + inc - front.added / 2 - (p - m.multiplicity + 1) / 2
        + front.pointsBefore.length := by
  show (List.reverse _ ++ _).length = _
  rw [List.length_append, List.length_reverse, length_kept, length_mendBefore]

theorem Front.length_knotsBefore_advance {r inc : Nat} (front : Front K)
    (m : KnotMultiplicity K) (later : List (KnotMultiplicity K)) :
    (front.advance r p inc d m later).knotsBefore.length
      = p + inc - front.added + front.knotsBefore.length := by
  show (List.replicate _ _ ++ front.knotsBefore).length = _
  rw [List.length_append, List.length_replicate]

/-- The shape at one front gives the shape at the next. -/
theorem Front.Shaped.advance {r inc : Nat} {front : Front K} {m : KnotMultiplicity K}
    {later : List (KnotMultiplicity K)} (h : front.Shaped d p (m :: later))
    (full : Full p (m :: later)) : (front.advance r p inc d m later).Shaped d p later := by
  obtain ⟨segment, segmentSized⟩ := h.segment (by simp)
  obtain ⟨after, afterSized⟩ := h.after (by simp)
  have added := h.added_le
  have count := h.count
  have enough := h.enough
  have positive := full.pos
  have pointsBefore : (front.advance r p inc d m later).pointsBefore.length = _ :=
    front.length_pointsBefore_advance m later
  have knotsBefore : (front.advance r p inc d m later).knotsBefore.length = _ :=
    front.length_knotsBefore_advance m later
  refine ⟨?_, ?_, ?_, ?_, fun more => ?_, fun more => ?_⟩
  · exact Nat.sub_le _ _
  · rw [pointsBefore, knotsBefore]
    show _ + (p - m.multiplicity + 1) / 2 = _
    omega
  · rw [knotsBefore]
    show p - m.multiplicity < _
    omega
  · refine AllSized.append (AllSized.reverse ?_) (h.sized.sweeps (fun i _ => by simp) (by omega))
    by_cases trivial : p + inc = 0
    · rw [trivial]
      simp [AllSized]
    · exact (h.allSized_mended trivial).take _
  · -- the last edge of the triangle, then points from further on
    obtain ⟨m', rest, rfl⟩ := List.exists_cons_of_ne_nil more
    have inner : m.multiplicity ≤ p ∧ p + 1 ≤ total (m' :: rest) := by
      cases full with
      | inner _ le rest => exact ⟨le, rest.le_total⟩
    rw [total_cons] at after
    refine ⟨?_, AllSized.append (AllSized.reverse (allSized_filterMap
      (fun row x hx => List.mem_of_getLast? hx) h.allSized_triangle)) (afterSized.take _)⟩
    show (List.reverse _ ++ _).length = _
    rw [List.length_append, List.length_reverse, h.length_edge inner.1 full, List.length_take]
    omega
  · obtain ⟨m', rest, rfl⟩ := List.exists_cons_of_ne_nil more
    have inner : p + 1 ≤ total (m' :: rest) := by
      cases full with
      | inner _ _ rest => exact rest.le_total
    refine ⟨?_, afterSized.drop _⟩
    show (front.pointsAfter.drop m.multiplicity).length + _ = _
    rw [total_cons] at after
    rw [List.length_drop]
    omega

/-- The raised knots from the front on. -/
def knotsFrom (p inc : Nat) (front : Front K) (later : List (KnotMultiplicity K)) : List K :=
  front.knotsBefore.reverse
    ++ List.replicate (p + inc - front.added + if later = [] then 1 else 0) front.knot
    ++ later.flatMap fun m => List.replicate (m.multiplicity + inc) m.knot

/-- The raised knots are the same from every front. -/
theorem knotsFrom_advance {r inc : Nat} {front : Front K} {m : KnotMultiplicity K}
    {later : List (KnotMultiplicity K)} (full : Full p (m :: later)) :
    knotsFrom p inc (front.advance r p inc d m later) later
      = knotsFrom p inc front (m :: later) := by
  have copies : p + inc - (p - m.multiplicity) + (if later = [] then 1 else 0)
      = m.multiplicity + inc := by
    cases full with
    | last full => simp [full]; omega
    | inner _ le _ =>
        simp only [List.cons_ne_nil, if_false]
        omega
  simp only [knotsFrom, Front.advance, copies, List.reverse_append, List.reverse_replicate,
    List.flatMap_cons, List.cons_ne_nil, if_false, Nat.add_zero, List.append_assoc]

/-- **The raised points fit the raised knots.** -/
theorem length_raiseWithin {inc : Nat} {reach : Front K → Nat} {front : Front K}
    {later : List (KnotMultiplicity K)} (h : front.Shaped d p later) (full : Full p later)
    (final : later = [] → front.added = 0) :
    (raiseWithin reach p inc d later front).length + (p + inc) + 1
        = (knotsFrom p inc front later).length
      ∧ AllSized d (raiseWithin reach p inc d later front) := by
  induction later generalizing front with
  | nil =>
      have none := final rfl
      have count := h.count
      refine ⟨?_, h.sized.reverse⟩
      show front.pointsBefore.reverse.length + _ + 1 = _
      simp only [knotsFrom, List.length_append, List.length_reverse, List.length_replicate,
        List.flatMap_nil, List.length_nil, if_true]
      omega
  | cons m later ih =>
      rw [raiseWithin, ← knotsFrom_advance (r := reach front) (d := d) full]
      refine ih (h.advance full) full.tail fun none => ?_
      show p - m.multiplicity = 0
      cases full with
      | last full => omega
      | inner => simp at none

end RationalSpline.Spline
