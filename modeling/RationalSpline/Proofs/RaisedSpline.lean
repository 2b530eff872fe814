/-
  RationalSpline.Proofs.RaisedSpline
  ──────────────────────────────────
  THE RAISED SPLINE FOLLOWS THE ELEVATED FORMS.

  At a front with the knot `a`, the raised knots before it with `a` at full multiplicity
  form a line of knots, and the raised points so far are values of elevated forms at
  stretches of that line: the copies of `a` that were added have not been removed yet.
  The next segment removes them, raises its own Bézier polygon, and hands over.

  All this is about the sweeps in which every knot stands for itself.
-/
import RationalSpline.Proofs.RaisedSegment
import RationalSpline.Proofs.RaisedShape
import RationalSpline.Proofs.Smoothness

namespace RationalSpline.Spline

variable {K : Type} [Field K] [LinearOrder K] {d p inc : Nat}

/-! ## §1. The invariant. -/

/-- The raised knots up to the front, with the front at full multiplicity `q`, the nearest
first. -/
def Front.line (q : Nat) (front : Front K) : List K :=
  List.replicate q front.knot ++ front.knotsBefore

/-- Every raised point so far is the value of a form on whose span it acts. -/
def Front.Settled (U : KnotVector K) (n p q : Nat) (G : Pieces K d q) (front : Front K) : Prop :=
  ∀ e < front.pointsBefore.length, ∃ t, Inside U p n t
    ∧ (∀ x ∈ (front.line q).take ((front.added + 1) / 2 + e), t < x)
    ∧ (∀ x ∈ (front.line q).drop ((front.added + 1) / 2 + e + q), x < t)
    ∧ front.pointsBefore.getD e []
      = Point.ofVec (G t (((front.line q).drop ((front.added + 1) / 2 + e)).take q : List K))

/-- A place on a line of knots carries a point: the value of a form at the stretch from there on,
at a parameter between the knots before the stretch and those behind it. -/
def Carries (U : KnotVector K) (n p q : Nat) (G : Pieces K d q) (line : List K) (r : Nat)
    (x : Point K) : Prop :=
  ∃ t, Inside U p n t ∧ (∀ z ∈ line.take r, t < z) ∧ (∀ z ∈ line.drop (r + q), z < t)
    ∧ x = Point.ofVec (G t ((line.drop r).take q : List K))

theorem Front.settled_iff {U : KnotVector K} {n q : Nat} {G : Pieces K d q} {front : Front K} :
    front.Settled U n p q G ↔ ∀ e < front.pointsBefore.length,
      Carries U n p q G (front.line q) ((front.added + 1) / 2 + e) (front.pointsBefore.getD e []) :=
  Iff.rfl

/-- Full copies of a later knot in the place of those that a point does not use leave it where
it is, so many places behind. -/
theorem Carries.prepend {U : KnotVector K} {n q : Nat} {G : Pieces K d q} {line : List K}
    {a k : Nat} {x : Point K} (h : Carries U n p q G line (a + k) x) {u : K}
    (later : ∀ t, (∀ z ∈ line.take (a + k), t < z) → t < u) :
    Carries U n p q G (List.replicate q u ++ line.drop a) (q + k) x := by
  obtain ⟨t, inside, after, before, value⟩ := h
  have behind : ∀ j, (List.replicate q u ++ line.drop a).drop (q + j) = line.drop (a + j) := by
    intro j
    rw [List.drop_append, List.drop_eq_nil_of_le (by simp), List.nil_append,
        List.length_replicate, Nat.add_sub_cancel_left, List.drop_drop]
  refine ⟨t, inside, fun z hz => ?_, fun z hz => ?_, ?_⟩
  · rw [List.take_append, List.take_of_length_le (by simp), List.length_replicate,
        Nat.add_sub_cancel_left] at hz
    rcases List.mem_append.1 hz with hz | hz
    · rw [List.eq_of_mem_replicate hz]
      exact later t after
    · refine after z (List.mem_of_mem_drop (i := a) ?_)
      rwa [List.drop_take, Nat.add_sub_cancel_left]
  · rw [Nat.add_assoc, behind, ← Nat.add_assoc] at hz
    exact before z hz
  · rw [behind, value]

/-- The front stands before the knot with the index `y`, ready for the segment up to it. -/
structure Front.Ready (U : KnotVector K) (P : List (Point K)) (F : Pieces K d p) (inc : Nat)
    (front : Front K) (y : Nat) : Prop where
  /-- The knots before the front have full multiplicity. -/
  start : p < y
  /-- The front is the knot before. -/
  knot : U.knot (y - 1) = front.knot
  /-- The points after the segment are those of the spline. -/
  after : front.pointsAfter = P.drop y
  /-- The raised knots before the front lie before it. -/
  le : ∀ x ∈ front.knotsBefore, x ≤ front.knot
  /-- A front to which copies were added is not the first. -/
  lt : 0 < front.added → ∀ x ∈ front.knotsBefore, x < front.knot
  /-- The points of the segment are values of its form. -/
  segment : ∀ t, front.knot < t → t < U.knot y →
    front.segment = segmentRow (F t) front.knot (U.values.drop y)
  /-- So are, in the higher degree, the raised points in the reach of the front. -/
  near : ∀ t, front.knot < t → t < U.knot y → ∀ e ≤ front.added / 2,
    front.pointsBefore.getD e []
      = Point.ofVec ((F t).elevate inc
          (Multiset.replicate (p + inc - ((front.added + 1) / 2 + e)) front.knot
            + (front.knotsBefore.take ((front.added + 1) / 2 + e) : List K)))

/-- A raised point with a parameter on which it acts, in terms of the raised knots. -/
def ActsRightly (U : KnotVector K) (n p q : Nat) (G : Pieces K d q) (knots : List K)
    (points : List (Point K)) : Prop :=
  ∀ j < points.length, ∃ t, Inside U p n t ∧ (∀ x ∈ knots.take (j + 1), x < t)
    ∧ (∀ x ∈ knots.drop (j + 1 + q), t < x)
    ∧ points.getD j [] = Point.ofVec (G t ((knots.drop (j + 1)).take q : List K))

variable {U : KnotVector K} {P : List (Point K)} {F : Pieces K d p} {front : Front K}
  {m : KnotMultiplicity K} {later : List (KnotMultiplicity K)} {y : Nat}

/-- At the end of the domain the line is the raised knot vector, read backwards. -/
theorem Front.Settled.actsRightly {q n : Nat} {G : Pieces K d q}
    (h : front.Settled U n p q G) (count : front.pointsBefore.length = front.knotsBefore.length)
    (none : front.added = 0) (finish : ∀ t, Inside U p n t → t < front.knot) :
    ActsRightly U n p q G (front.knotsBefore.reverse ++ List.replicate (q + 1) front.knot)
      front.pointsBefore.reverse := by
  have line : front.knotsBefore.reverse ++ List.replicate (q + 1) front.knot
      = (front.knot :: front.line q).reverse := by
    rw [Front.line, List.reverse_cons, List.reverse_append, List.reverse_replicate,
        List.append_assoc, List.replicate_succ']
  have length : (front.line q).length = q + front.knotsBefore.length := by
    rw [Front.line, List.length_append, List.length_replicate]
  -- the points and the line are stored backwards, so the point `j` is the entry `e` from the front
  intro j hj
  rw [List.length_reverse] at hj
  obtain ⟨e, he⟩ : ∃ e, e + j + 1 = front.knotsBefore.length :=
    ⟨front.knotsBefore.length - 1 - j, by omega⟩
  obtain ⟨t, inside, after, before, value⟩ := h e (by omega)
  have start : (front.added + 1) / 2 + e = e := by omega
  rw [start] at after before value
  refine ⟨t, inside, ?_, ?_, ?_⟩
  · intro x hx
    refine before x ?_
    rw [line, List.take_reverse, List.length_cons, length,
        show q + front.knotsBefore.length + 1 - (j + 1) = e + q + 1 by omega,
        List.drop_succ_cons] at hx
    exact List.mem_reverse.1 hx
  · intro x hx
    rw [line, List.drop_reverse, List.length_cons, length,
        show q + front.knotsBefore.length + 1 - (j + 1 + q) = e + 1 by omega,
        List.take_succ_cons] at hx
    rcases List.mem_cons.1 (List.mem_reverse.1 hx) with rfl | hx
    · exact finish t inside
    · exact after x hx
  · have entry : front.pointsBefore.reverse.getD j [] = front.pointsBefore.getD e [] := by
      simp only [List.getD_eq_getElem?_getD]
      rw [List.getElem?_reverse (by omega)]
      exact congrArg (fun i => (front.pointsBefore[i]?).getD []) (by omega)
    have stretch : ((front.knot :: front.line q).reverse.drop (j + 1)).take q
        = (((front.line q).drop e).take q).reverse := by
      rw [List.drop_reverse, List.length_cons, length,
          show q + front.knotsBefore.length + 1 - (j + 1) = e + q + 1 by omega,
          List.take_succ_cons, List.reverse_cons, List.take_append_of_le_length (by
            rw [List.length_reverse, List.length_take]; omega),
          List.take_reverse, List.length_take, length,
          show min (e + q) (q + front.knotsBefore.length) - q = e by omega, List.drop_take,
          show e + q - e = q by omega]
    rw [entry, value, line, stretch, Multiset.coe_reverse]

/-! ## §2. A break of the knots. -/

/-- The knots of a break. -/
theorem knot_of_drop (values : U.values.drop y = (m :: later).flatMap KnotMultiplicity.occurrences)
    {r : Nat} (hr : r < m.multiplicity) : U.knot (y + r) = m.knot := by
  have entry := congrArg (fun l => l.getD r 0) values
  simp only [List.getD_eq_getElem?_getD, List.getElem?_drop] at entry
  rw [KnotVector.knot, List.getD_eq_getElem?_getD, entry, List.flatMap_cons,
      KnotMultiplicity.occurrences, ← List.getD_eq_getElem?_getD,
      List.getD_append _ _ _ _ (by simpa using hr), List.getD_eq_getElem _ _ (by simpa using hr),
      List.getElem_replicate]

/-- A break and the knots after it. -/
theorem drop_eq_append {α : Type} {U : KnotVector α} {m : KnotMultiplicity α}
    {later : List (KnotMultiplicity α)}
    (values : U.values.drop y = (m :: later).flatMap KnotMultiplicity.occurrences) :
    U.values.drop y = List.replicate m.multiplicity m.knot
      ++ later.flatMap KnotMultiplicity.occurrences :=
  values.trans List.flatMap_cons

/-- The knots after a break. -/
theorem drop_of_drop {α : Type} {U : KnotVector α} {m : KnotMultiplicity α}
    {later : List (KnotMultiplicity α)}
    (values : U.values.drop y = (m :: later).flatMap KnotMultiplicity.occurrences) :
    U.values.drop (y + m.multiplicity) = later.flatMap KnotMultiplicity.occurrences := by
  rw [← List.drop_drop, values, List.flatMap_cons,
      List.drop_left' (KnotMultiplicity.length_occurrences m)]

/-- Every knot of later breaks lies above an earlier one. -/
theorem lt_of_mem_flatMap {prev : KnotMultiplicity K} {breaks : List (KnotMultiplicity K)}
    (sorted : (prev :: breaks).Pairwise fun m m' => m.knot < m'.knot) :
    ∀ x ∈ breaks.flatMap KnotMultiplicity.occurrences, prev.knot < x := by
  intro x hx
  obtain ⟨m, hm, hx⟩ := List.mem_flatMap.1 hx
  rw [List.eq_of_mem_replicate hx]
  exact List.rel_of_pairwise_cons sorted hm

/-- A break that is the only knot between two parameters. -/
structure Divides (U : KnotVector K) (p n y : Nat) (m : KnotMultiplicity K) : Prop where
  /-- There is a span before it. -/
  start : p < y
  /-- There is a span after it. -/
  finish : y + m.multiplicity ≤ n
  /-- The knot before is smaller. -/
  before : U.knot (y - 1) < m.knot
  /-- The knots of the break. -/
  run : ∀ r < m.multiplicity, U.knot (y + r) = m.knot
  /-- The knot after is larger. -/
  after : m.knot < U.knot (y + m.multiplicity)

namespace Divides

variable {n : Nat}

theorem between (h : Divides U p n y m) (ordered : U.Ordered) (size : n < U.size) {t t' x : K}
    (low : U.knot (y - 1) < t) (high : t' < U.knot (y + m.multiplicity)) (member : x ∈ U.values)
    (hx : t < x) (hx' : x < t') : x = m.knot := by
  have finish := h.finish
  have start := h.start
  obtain ⟨r, hr, rfl⟩ := KnotVector.exists_knot_of_mem member
  have lower : y - 1 < r := ordered.lt_of_knot_lt (by omega) (lt_trans low hx)
  have upper : r < y + m.multiplicity := ordered.lt_of_knot_lt hr (lt_trans hx' high)
  obtain ⟨k, rfl⟩ : ∃ k, r = y + k := ⟨r - y, by omega⟩
  exact h.run k (by omega)

theorem count_eq (h : Divides U p n y m) (ordered : U.Ordered) (size : n < U.size)
    (pos : 0 < m.multiplicity) : U.count m.knot = m.multiplicity := by
  have finish := h.finish
  have start := h.start
  have split := KnotVector.countUpTo_eq U m.knot
  have first := h.run 0 pos
  have last := h.run (m.multiplicity - 1) (by omega)
  have below := (ordered.knot_lt_iff (i := y - 1) (by omega)).1 h.before
  have notBelow : ¬y < U.countBelow m.knot := fun e => by
    have := (ordered.knot_lt_iff (i := y) (by omega)).2 e
    rw [Nat.add_zero] at first
    exact absurd first this.ne
  have upTo := (ordered.knot_le_iff (i := y + (m.multiplicity - 1)) (by omega)).1 last.le
  have notUpTo : ¬y + m.multiplicity < U.countUpTo m.knot := fun e =>
    absurd h.after (not_lt.2 ((ordered.knot_le_iff (by omega)).2 e))
  omega

/-- The forms on its two sides agree where the break is held as often as it is repeated. -/
theorem agree (h : Divides U p P.length y m) (ordered : U.Ordered)
    (size : U.size = P.length + p + 1) (pos : 0 < m.multiplicity) (follows : Follows U P F)
    {t t' : K} (low : U.knot (y - 1) < t) (high : t < m.knot) (low' : m.knot < t')
    (high' : t' < U.knot (y + m.multiplicity)) {s : Multiset K} (card : s.card = p)
    (held : m.multiplicity ≤ s.count m.knot) : F t s = F t' s := by
  have finish := h.finish
  have start := h.start
  have first := h.run 0 pos
  have last := h.run (m.multiplicity - 1) (by omega)
  rw [Nat.add_zero] at first
  refine follows.agree_of_count ordered size
    ⟨y - 1, by omega, by omega, low, by rw [show y - 1 + 1 = y by omega, first]; exact high⟩
    ⟨y + (m.multiplicity - 1), by omega, by omega, by rw [last]; exact low', by
      rw [show y + (m.multiplicity - 1) + 1 = y + m.multiplicity by omega]
      exact high'⟩ (lt_trans high low') card fun x member hx hx' => ?_
  obtain rfl := h.between ordered (by omega) low high' member hx hx'
  rwa [h.count_eq ordered (by omega) pos]

/-- So do the elevated forms, with `inc` copies more. -/
theorem elevate_agree (h : Divides U p P.length y m) (ordered : U.Ordered)
    (size : U.size = P.length + p + 1) (pos : 0 < m.multiplicity) (follows : Follows U P F)
    {t t' : K} (low : U.knot (y - 1) < t) (high : t < m.knot) (low' : m.knot < t')
    (high' : t' < U.knot (y + m.multiplicity)) {s : Multiset K} (card : s.card = p + inc)
    (held : m.multiplicity + inc ≤ s.count m.knot) :
    (F t).elevate inc s = (F t').elevate inc s := by
  refine PolarForm.elevate_congr fun u le card' => ?_
  refine h.agree ordered size pos follows low high low' high' card' ?_
  obtain ⟨v, rfl⟩ := Multiset.le_iff_exists_add.1 le
  have few := Multiset.count_le_card m.knot v
  rw [Multiset.count_add] at held
  rw [Multiset.card_add] at card
  omega

/-- So the rows of the segments on its two sides agree as far as they hold the break. -/
theorem take_segmentRow (h : Divides U p P.length y m) (ordered : U.Ordered)
    (size : U.size = P.length + p + 1) (pos : 0 < m.multiplicity) (le : m.multiplicity ≤ p)
    (follows : Follows U P F) {t t' : K} (low : U.knot (y - 1) < t) (high : t < m.knot)
    (low' : m.knot < t') (high' : t' < U.knot (y + m.multiplicity)) {behind : List K}
    (enough : p - m.multiplicity ≤ behind.length) :
    (segmentRow (F t) m.knot behind).take (p - m.multiplicity + 1)
      = (segmentRow (F t') m.knot behind).take (p - m.multiplicity + 1) := by
  simp only [segmentRow, triangleRow, ← List.map_take, List.take_range]
  refine List.map_congr_left fun j hj => ?_
  have hj' := List.mem_range.1 hj
  refine congrArg _ (h.agree ordered size pos follows low high low' high' ?_ ?_)
  · simp only [Multiset.card_add, Multiset.card_replicate, Multiset.card_zero, Multiset.coe_card,
      List.length_take]
    omega
  · rw [Multiset.count_add, Multiset.count_add, Multiset.count_replicate_self]
    omega

/-- The points of the spline at the break are the rest of the row of the segment behind it. -/
theorem drop_segmentRow (h : Divides U p P.length y m) (size : U.size = P.length + p + 1)
    (pos : 0 < m.multiplicity) (le : m.multiplicity ≤ p) (follows : Follows U P F)
    (values : U.values.drop y = (m :: later).flatMap KnotMultiplicity.occurrences) {t : K}
    (low : m.knot < t) (high : t < U.knot (y + m.multiplicity)) :
    (P.drop y).take m.multiplicity
      = (segmentRow (F t) m.knot (later.flatMap KnotMultiplicity.occurrences)).drop
          (p - m.multiplicity + 1) := by
  have start := h.start
  have finish := h.finish
  have last := h.run (m.multiplicity - 1) (by omega)
  refine List.ext_getElem (by
    rw [List.length_take, List.length_drop, List.length_drop, length_segmentRow]
    omega) fun i h₁ h₂ => ?_
  have hi : i < m.multiplicity := by
    rw [List.length_take] at h₁
    omega
  have point := follows (y + (m.multiplicity - 1)) (by omega) (by omega) t (last ▸ low)
    (by rwa [show y + (m.multiplicity - 1) + 1 = y + m.multiplicity by omega])
    (y + i) (by omega) (by omega)
  rw [List.getD_eq_getElem _ _ (by omega)] at point
  -- of the break's copies those behind the point are held, and then come the later knots
  have knots : stretch U.knot (y + i + 1) p
      = Multiset.replicate (m.multiplicity - (i + 1)) m.knot
        + ((later.flatMap KnotMultiplicity.occurrences).take
            (p - m.multiplicity + 1 + i) : List K) := by
    rw [stretch_eq_coe U (by omega), show y + i + 1 = y + (i + 1) by omega, ← List.drop_drop,
        drop_eq_append values, List.drop_append_of_le_length (by simp; omega),
        List.drop_replicate, List.take_append, List.take_of_length_le (by simp; omega),
        List.length_replicate,
        show p - (m.multiplicity - (i + 1)) = p - m.multiplicity + 1 + i by omega,
        ← Multiset.coe_add, Multiset.coe_replicate]
  rw [List.getElem_take, List.getElem_drop, point, knots, List.getElem_drop]
  simp only [segmentRow, triangleRow, List.getElem_map, List.getElem_range, add_zero]
  rw [show p - (p - m.multiplicity + 1 + i) = m.multiplicity - (i + 1) by omega]

end Divides

/-! ## §3. Fronts along the breaks. -/

/-- A front on the run over the breaks of a spline: `prev` is behind it, `later` ahead. -/
structure Front.Along (d : Nat) (U : KnotVector K) (P : List (Point K)) (F : Pieces K d p)
    (inc : Nat) (front : Front K) (prev : KnotMultiplicity K)
    (later : List (KnotMultiplicity K)) (y : Nat) : Prop where
  /-- What the next segment needs is there. -/
  ready : front.Ready U P F inc y
  /-- The counts and sizes fit. -/
  shaped : front.Shaped d p later
  /-- The breaks ahead end in a full one. -/
  full : Full p later
  /-- The knots from `y` on are those of the breaks ahead. -/
  values : U.values.drop y = later.flatMap KnotMultiplicity.occurrences
  /-- They are in order. -/
  sorted : (prev :: later).Pairwise fun m m' => m.knot < m'.knot
  /-- The front stands at the break behind it. -/
  knot : front.knot = prev.knot
  /-- That break has at least one copy of its own. -/
  added : front.added < p

namespace Front.Along

variable {prev m' : KnotMultiplicity K}

theorem above (h : front.Along d U P F inc prev later y) :
    ∀ x ∈ U.values.drop y, front.knot < x := by
  rw [h.values, h.knot]
  exact lt_of_mem_flatMap h.sorted

theorem above_next (h : front.Along d U P F inc prev (m :: later) y) :
    ∀ x ∈ U.values.drop (y + m.multiplicity), m.knot < x := by
  rw [drop_of_drop h.values]
  exact lt_of_mem_flatMap h.sorted.of_cons

theorem lt_next (h : front.Along d U P F inc prev (m :: later) y) : front.knot < m.knot :=
  h.knot ▸ List.rel_of_pairwise_cons h.sorted List.mem_cons_self

theorem knot_next (h : front.Along d U P F inc prev (m :: later) y) : U.knot y = m.knot := by
  have pos : 0 < m.multiplicity := by cases h.full <;> omega
  exact knot_of_drop h.values pos

/-- There are knots ahead of a front. -/
theorem size_sub (h : front.Along d U P F inc prev later y) : U.size - y = total later := by
  have length := congrArg List.length h.values
  rw [List.length_drop] at length
  exact length

end Front.Along

/-! ## §4. One segment. -/

/-- A stretch of the line that begins in the copies of the front. -/
theorem take_drop_line {α : Type} {q r : Nat} (front : Front α) (hr : r ≤ q) :
    ((front.line q).drop r).take q
      = List.replicate (q - r) front.knot ++ front.knotsBefore.take r := by
  rw [Front.line, List.drop_append, List.drop_replicate, List.length_replicate,
      show r - q = 0 by omega, List.drop_zero, List.take_append, List.length_replicate,
      List.take_of_length_le (by simp), show q - (q - r) = r by omega]

/-- The new points are those of the segment, then those before the front. -/
theorem getD_advance {front : Front K} {m : KnotMultiplicity K}
    {later : List (KnotMultiplicity K)} (e : Nat) :
    (front.advance 0 p inc d m later).pointsBefore.getD e []
      = if e < p + inc - front.added / 2 - (p - m.multiplicity + 1) / 2 then
          (front.mended 0 p inc d m later).getD
            (p + inc - front.added / 2 - (p - m.multiplicity + 1) / 2 - 1 - e) []
        else (mendBefore front m.knot).getD
          (e - (p + inc - front.added / 2 - (p - m.multiplicity + 1) / 2)) [] := by
  have kept : ((front.mended 0 p inc d m later).take
      (p + inc - front.added / 2 - (p - m.multiplicity + 1) / 2)).length
        = p + inc - front.added / 2 - (p - m.multiplicity + 1) / 2 := length_kept
  show (List.reverse _ ++ mendBefore front m.knot).getD e [] = _
  split
  · next early =>
      rw [List.getD_append _ _ _ _ (by rw [List.length_reverse, kept]; exact early)]
      simp only [List.getD_eq_getElem?_getD]
      rw [List.getElem?_reverse (by rw [kept]; exact early), kept,
          List.getElem?_take_of_lt (by omega)]
  · next late =>
      rw [List.getD_append_right _ _ _ _ (by rw [List.length_reverse, kept]; omega),
          List.length_reverse, kept]

/-- The knots that the copies of a front leave of the line lie up to it. -/
theorem Front.Ready.le_of_mem (h : front.Ready U P F inc y) :
    ∀ x ∈ List.replicate (p + inc - front.added) front.knot ++ front.knotsBefore,
      x ≤ front.knot := by
  intro x hx
  rcases List.mem_append.1 hx with hx | hx
  · exact (List.eq_of_mem_replicate hx).le
  · exact h.le x hx

variable [IsStrictOrderedRing K]

/-- The raised polygon of the segment is that of the elevated form. -/
theorem Front.Ready.getD_raised (h : front.Ready U P F inc y) (full : Full p (m :: later))
    (values : U.values.drop y = (m :: later).flatMap KnotMultiplicity.occurrences)
    (above : ∀ x ∈ U.values.drop y, front.knot < x) {t : K} (low : front.knot < t)
    (high : t < U.knot y) {i : Nat} (hi : i ≤ p + inc) :
    (raisePolygon d (shareRows p inc) (front.polygon p m later)).getD i []
      = Point.ofVec ((F t).elevate inc
          (Multiset.replicate (p + inc - i) front.knot + Multiset.replicate i m.knot)) := by
  have split := drop_eq_append values
  have distinct : ∀ x ∈ later.flatMap KnotMultiplicity.occurrences, x ≠ front.knot :=
    fun x hx => (above x (by rw [split]; exact List.mem_append_right _ hx)).ne'
  have reach : p < m.multiplicity ∨ p - m.multiplicity
      ≤ (later.flatMap KnotMultiplicity.occurrences).length := by
    cases full with
    | last full => exact Or.inl (by omega)
    | inner _ _ rest =>
        right
        have := rest.le_total
        show _ ≤ total _
        omega
  -- the Bézier polygon of the piece
  have polygon : front.polygon p m later = bezierRow (F t) front.knot m.knot := by
    have bezier := bezier_of_segment (F t) (a := front.knot) (b := m.knot)
      (μ := m.multiplicity) distinct reach
    rw [← split, ← h.segment t low high] at bezier
    exact bezier
  rw [polygon]
  exact getD_raisePolygon (by simp [bezierRow]) (fun j hj => getD_bezierRow _ _ _ hj) hi

/-- **Around the new front the points are values of the form of the segment.** -/
theorem Front.Ready.getD_advance_near (h : front.Ready U P F inc y)
    (shaped : front.Shaped d p (m :: later)) (full : Full p (m :: later))
    (added : front.added < p)
    (values : U.values.drop y = (m :: later).flatMap KnotMultiplicity.occurrences)
    (above : ∀ x ∈ U.values.drop y, front.knot < x) {t : K} (low : front.knot < t)
    (high : t < U.knot y) {e : Nat} (he : (p - m.multiplicity + 1) / 2 + e ≤ p + inc) :
    (front.advance 0 p inc d m later).pointsBefore.getD e []
      = Point.ofVec ((F t).elevate inc
          (Multiset.replicate (p + inc - ((p - m.multiplicity + 1) / 2 + e)) m.knot
            + ((List.replicate (p + inc - front.added) front.knot ++ front.knotsBefore).take
                ((p - m.multiplicity + 1) / 2 + e) : List K))) := by
  have count := shaped.count
  have enough := shaped.enough
  have positive : 0 < m.multiplicity := by cases full <;> omega
  have split := drop_eq_append values
  have apart : front.knot ≠ m.knot := ne_of_lt (above _ (by
    rw [split]
    exact List.mem_append_left _ (List.mem_replicate.2 ⟨by omega, rfl⟩)))
  have raised := fun i hi => h.getD_raised full values above low high (i := i) hi
  rw [getD_advance]
  split
  · next early =>
      rw [Front.mended, getD_mendAfter ((F t).elevate inc) (by simp) (by omega) (by omega) apart
        raised (by omega)]
      rw [show front.added / 2 + 1
          + (p + inc - front.added / 2 - (p - m.multiplicity + 1) / 2 - 1 - e)
          = p + inc - ((p - m.multiplicity + 1) / 2 + e) by omega,
        show p + inc - (p + inc - ((p - m.multiplicity + 1) / 2 + e))
          = (p - m.multiplicity + 1) / 2 + e by omega]
  · next late =>
      rw [getD_mendBefore ((F t).elevate inc) (by omega) (by omega) (by omega)
        (fun pos x hx => (h.lt pos x hx).ne) (h.near t low high) (by omega)]
      rw [show front.added / 2
          - (e - (p + inc - front.added / 2 - (p - m.multiplicity + 1) / 2))
          = p + inc - ((p - m.multiplicity + 1) / 2 + e) by omega,
        show p + inc - (p + inc - ((p - m.multiplicity + 1) / 2 + e))
          = (p - m.multiplicity + 1) / 2 + e by omega]

/-- The points of the new segment are carried by its own form. -/
theorem Front.Ready.carries_advance (h : front.Ready U P F inc y)
    (shaped : front.Shaped d p (m :: later)) (full : Full p (m :: later))
    (added : front.added < p)
    (values : U.values.drop y = (m :: later).flatMap KnotMultiplicity.occurrences)
    (above : ∀ x ∈ U.values.drop y, front.knot < x) (size : y ≤ P.length)
    (sizeU : P.length < U.size) {e : Nat} (near : (p - m.multiplicity + 1) / 2 + e ≤ p + inc) :
    Carries U P.length p (p + inc) (fun t => (F t).elevate inc)
      ((front.advance 0 p inc d m later).line (p + inc)) ((p - m.multiplicity + 1) / 2 + e)
      ((front.advance 0 p inc d m later).pointsBefore.getD e []) := by
  have start := h.start
  have positive : 0 < m.multiplicity := by cases full <;> omega
  have first : U.knot y = m.knot := knot_of_drop values positive
  have lt : front.knot < m.knot := first ▸ above _ (U.knot_mem_drop (by omega))
  have line : (front.advance 0 p inc d m later).line (p + inc)
      = List.replicate (p + inc) m.knot
        ++ (List.replicate (p + inc - front.added) front.knot ++ front.knotsBefore) := rfl
  obtain ⟨t, low, high⟩ := exists_between lt
  refine ⟨t, ⟨y - 1, by omega, by omega, by rw [h.knot]; exact low, ?_⟩, ?_, ?_, ?_⟩
  · rw [show y - 1 + 1 = y by omega, first]
    exact high
  · intro x hx
    rw [line, List.take_append_of_le_length (by simpa using near)] at hx
    rw [List.eq_of_mem_replicate (List.mem_of_mem_take hx)]
    exact high
  · intro x hx
    rw [line, List.drop_append, List.drop_eq_nil_of_le (by simp), List.nil_append] at hx
    exact lt_of_le_of_lt (h.le_of_mem x (List.mem_of_mem_drop hx)) low
  · rw [h.getD_advance_near shaped full added values above low (first ▸ high) near,
        take_drop_line _ near, ← Multiset.coe_add, Multiset.coe_replicate]
    rfl

/-- **The points so far stay settled**, those around the new front on the new segment. -/
theorem Front.Settled.advance (settled : front.Settled U P.length p (p + inc)
      fun t => (F t).elevate inc)
    (h : front.Ready U P F inc y) (shaped : front.Shaped d p (m :: later))
    (full : Full p (m :: later)) (added : front.added < p)
    (values : U.values.drop y = (m :: later).flatMap KnotMultiplicity.occurrences)
    (above : ∀ x ∈ U.values.drop y, front.knot < x) (size : y ≤ P.length)
    (sizeU : P.length < U.size) :
    (front.advance 0 p inc d m later).Settled U P.length p (p + inc)
      fun t => (F t).elevate inc := by
  have count := shaped.count
  have positive : 0 < m.multiplicity := by cases full <;> omega
  have lt : front.knot < m.knot :=
    knot_of_drop values positive ▸ above _ (U.knot_mem_drop (by omega))
  have length : (front.advance 0 p inc d m later).pointsBefore.length
      = p + inc - front.added / 2 - (p - m.multiplicity + 1) / 2
        + front.pointsBefore.length := by
    show (List.reverse _ ++ mendBefore front m.knot).length = _
    rw [List.length_append, List.length_reverse, length_kept, length_mendBefore]
  refine Front.settled_iff.2 fun e he => ?_
  show Carries _ _ _ _ _ _ ((p - m.multiplicity + 1) / 2 + e) _
  by_cases near : (p - m.multiplicity + 1) / 2 + e ≤ p + inc
  · exact h.carries_advance shaped full added values above size sizeU near
  · -- an old point, on the old line behind the copies that were added
    obtain ⟨e', he'⟩ : ∃ e', e = p + inc - front.added / 2 - (p - m.multiplicity + 1) / 2 + e' :=
      ⟨e - (p + inc - front.added / 2 - (p - m.multiplicity + 1) / 2), by omega⟩
    obtain ⟨k, hk⟩ : ∃ k, (front.added + 1) / 2 + e' = front.added + k :=
      ⟨(front.added + 1) / 2 + e' - front.added, by omega⟩
    have old := Front.settled_iff.1 settled e' (by omega)
    rw [hk] at old
    have line : (front.advance 0 p inc d m later).line (p + inc)
        = List.replicate (p + inc) m.knot ++ (front.line (p + inc)).drop front.added := by
      rw [Front.line, Front.line, List.drop_append_of_le_length (by simp; omega),
          List.drop_replicate]
      rfl
    have point : (front.advance 0 p inc d m later).pointsBefore.getD e []
        = front.pointsBefore.getD e' [] := by
      rw [getD_advance, if_neg (by omega), getD_mendBefore_beyond (by omega) (by omega)]
      exact congrArg (fun i => front.pointsBefore.getD i []) (by omega)
    rw [line, point, show (p - m.multiplicity + 1) / 2 + e = p + inc + k by omega]
    refine old.prepend fun t before => lt_trans (before front.knot ?_) lt
    rw [Front.line, List.take_append, List.take_replicate]
    exact List.mem_append_left _ (List.mem_replicate.2 ⟨by omega, rfl⟩)

/-! ## §5. From segment to segment. -/

/-- **The segment behind a break** begins with the last points of the levels before it. -/
theorem Front.Ready.segment_advance (h : front.Ready U P F inc y) (follows : Follows U P F)
    (ordered : U.Ordered) (size : U.size = P.length + p + 1) (divides : Divides U p P.length y m)
    (pos : 0 < m.multiplicity) (le : m.multiplicity ≤ p)
    (enough : p - m.multiplicity ≤ (later.flatMap KnotMultiplicity.occurrences).length)
    (values : U.values.drop y = (m :: later).flatMap KnotMultiplicity.occurrences)
    (above : ∀ x ∈ U.values.drop (y + m.multiplicity), m.knot < x) {t : K} (low : m.knot < t)
    (high : t < U.knot (y + m.multiplicity)) :
    (front.advance 0 p inc d m later).segment
      = segmentRow (F t) m.knot (later.flatMap KnotMultiplicity.occurrences) := by
  have lt : front.knot < m.knot := h.knot ▸ divides.before
  have first : U.knot y = m.knot := knot_of_drop values pos
  obtain ⟨t₁, low₁, high₁⟩ := exists_between lt
  have later_ne : ∀ x ∈ later.flatMap KnotMultiplicity.occurrences, x ≠ front.knot :=
    fun x hx => (lt_trans lt (above x (drop_of_drop values ▸ hx))).ne'
  have edge : ((front.triangle p m later).filterMap List.getLast?).reverse
      = (segmentRow (F t₁) m.knot (later.flatMap KnotMultiplicity.occurrences)).take
          (p - m.multiplicity + 1) := by
    rw [← next_of_segment (F t₁) later_ne le enough, ← drop_eq_append values,
        ← h.segment t₁ low₁ (first ▸ high₁)]
    rfl
  show ((front.triangle p m later).filterMap List.getLast?).reverse
    ++ front.pointsAfter.take m.multiplicity = _
  rw [edge, h.after, divides.take_segmentRow ordered size pos le follows (h.knot ▸ low₁) high₁ low
    high enough, divides.drop_segmentRow size pos le follows values low high,
    List.take_append_drop]

/-- **The new front is ready for the next segment.** -/
theorem Front.Ready.advance {m' : KnotMultiplicity K} (h : front.Ready U P F inc y)
    (follows : Follows U P F) (ordered : U.Ordered) (size : U.size = P.length + p + 1)
    (shaped : front.Shaped d p (m :: m' :: later)) (full : Full p (m :: m' :: later))
    (added : front.added < p)
    (values : U.values.drop y = (m :: m' :: later).flatMap KnotMultiplicity.occurrences)
    (above : ∀ x ∈ U.values.drop y, front.knot < x)
    (above' : ∀ x ∈ U.values.drop (y + m.multiplicity), m.knot < x) :
    (front.advance 0 p inc d m (m' :: later)).Ready U P F inc (y + m.multiplicity) := by
  have start := h.start
  have enough := shaped.enough
  obtain ⟨pos, le, rest⟩ : 0 < m.multiplicity ∧ m.multiplicity ≤ p ∧ Full p (m' :: later) := by
    cases full with
    | inner pos le rest => exact ⟨pos, le, rest⟩
  have values' := drop_of_drop values
  have room := rest.le_total
  have length := congrArg List.length values'
  rw [List.length_drop] at length
  change U.size - _ = total (m' :: later) at length
  have first : U.knot y = m.knot := knot_of_drop values pos
  have lt : front.knot < m.knot := first ▸ above _ (U.knot_mem_drop (by omega))
  have next : m.knot < U.knot (y + m.multiplicity) := above' _ (U.knot_mem_drop (by omega))
  have divides : Divides U p P.length y m :=
    ⟨start, by omega, by rw [h.knot]; exact lt, fun r hr => knot_of_drop values hr, next⟩
  refine
    { start := by omega
      knot := ?_
      after := ?_
      le := fun x hx => (lt_of_le_of_lt (h.le_of_mem x hx) lt).le
      lt := fun _ x hx => lt_of_le_of_lt (h.le_of_mem x hx) lt
      segment := ?_
      near := ?_ }
  · rw [show y + m.multiplicity - 1 = y + (m.multiplicity - 1) by omega,
        knot_of_drop values (by omega)]
    rfl
  · show front.pointsAfter.drop m.multiplicity = _
    rw [h.after, List.drop_drop]
  · intro t low high
    rw [values']
    exact h.segment_advance follows ordered size divides pos le
      (by show _ ≤ total (m' :: later); omega) values above' low high
  · -- the forms before and behind the break agree on what is near it
    intro t low high e he
    change e ≤ (p - m.multiplicity) / 2 at he
    obtain ⟨t₁, low₁, high₁⟩ := exists_between lt
    rw [h.getD_advance_near shaped full added values above low₁ (first ▸ high₁) (by omega)]
    refine congrArg _ (divides.elevate_agree ordered size pos follows (h.knot ▸ low₁) high₁ low
      high ?_ ?_)
    · simp only [Multiset.card_add, Multiset.card_replicate, Multiset.coe_card, List.length_take,
        List.length_append, List.length_replicate]
      omega
    · rw [Multiset.count_add, Multiset.count_replicate_self]
      omega

/-! ## §6. The whole run. -/

namespace Front.Along

variable {prev m' : KnotMultiplicity K}

/-- **From front to front.** -/
theorem advance (h : front.Along d U P F inc prev (m :: m' :: later) y) (follows : Follows U P F)
    (ordered : U.Ordered) (size : U.size = P.length + p + 1) :
    (front.advance 0 p inc d m (m' :: later)).Along d U P F inc m (m' :: later)
      (y + m.multiplicity) := by
  obtain ⟨pos, rest⟩ : 0 < m.multiplicity ∧ Full p (m' :: later) := by
    cases h.full with
    | inner pos _ rest => exact ⟨pos, rest⟩
  have added := h.added
  refine ⟨?_, h.shaped.advance h.full, rest, drop_of_drop h.values, h.sorted.of_cons, rfl, ?_⟩
  · exact h.ready.advance follows ordered size h.shaped h.full h.added h.values h.above h.above_next
  · show p - m.multiplicity < p
    omega

/-- The points stay settled. -/
theorem settled_advance (h : front.Along d U P F inc prev (m :: later) y)
    (size : U.size = P.length + p + 1)
    (settled : front.Settled U P.length p (p + inc) fun t => (F t).elevate inc) :
    (front.advance 0 p inc d m later).Settled U P.length p (p + inc)
      fun t => (F t).elevate inc := by
  have room := h.full.le_total
  have length := h.size_sub
  exact settled.advance h.ready h.shaped h.full h.added h.values h.above (by omega) (by omega)

/-- **All raised points are right.** -/
theorem actsRightly (h : front.Along d U P F inc prev (m :: later) y)
    (settled : front.Settled U P.length p (p + inc) fun t => (F t).elevate inc)
    (follows : Follows U P F) (ordered : U.Ordered) (size : U.size = P.length + p + 1) :
    ActsRightly U P.length p (p + inc) (fun t => (F t).elevate inc)
      (knotsFrom p inc front (m :: later))
      (raiseWithin (fun _ => 0) p inc d (m :: later) front) := by
  induction later generalizing front m prev y with
  | nil =>
      have length := h.size_sub
      have after := h.settled_advance size settled
      have next : (front.advance 0 p inc d m []).Shaped d p [] := h.shaped.advance h.full
      have fullLast : m.multiplicity = p + 1 := by
        cases h.full with
        | last full => exact full
      have none : (front.advance 0 p inc d m []).added = 0 := by
        show p - m.multiplicity = 0
        omega
      have finish : ∀ t, Inside U p P.length t → t < (front.advance 0 p inc d m []).knot := by
        rintro t ⟨i, hp, hi, -, high⟩
        have last : U.knot P.length = m.knot := by
          have start := h.ready.start
          rw [total_cons] at length
          change U.size - y = m.multiplicity + 0 at length
          have := knot_of_drop h.values (r := P.length - y) (by omega)
          rwa [show y + (P.length - y) = P.length by omega] at this
        show t < m.knot
        rw [← last]
        exact lt_of_lt_of_le high (ordered.knot_le (by omega) (by omega))
      have count := next.count
      rw [none] at count
      rw [raiseWithin, ← knotsFrom_advance (r := 0) (d := d) h.full]
      have result := after.actsRightly (by omega) none finish
      simp only [knotsFrom, none, if_true, List.flatMap_nil, List.append_nil, Nat.sub_zero]
      exact result
  | cons m' later ih =>
      rw [raiseWithin, ← knotsFrom_advance (r := 0) (d := d) h.full]
      exact ih (h.advance follows ordered size) (h.settled_advance size settled)

end Front.Along

end RationalSpline.Spline
