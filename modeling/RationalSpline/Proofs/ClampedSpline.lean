/-
  RationalSpline.Proofs.ClampedSpline
  ───────────────────────────────────
  A CLAMPED SPLINE RAISED FROM ITS FIRST FRONT ON.

  `Clamped` splits the padded knots of a clamped spline into its two full ends and the
  breaks between them.  The raised knots are clamped again.  At the first knot stands a
  front from which the run over the breaks starts; what the run gives acts on the raised
  knots like the elevated forms of the spline (`Clamped.follows_raised`).
-/
import RationalSpline.Proofs.Breaks
import RationalSpline.Proofs.RaisedSpline

namespace RationalSpline

variable {K : Type}

/-- The knot `inc` times more. -/
def KnotMultiplicity.raise (inc : Nat) (m : KnotMultiplicity K) : KnotMultiplicity K :=
  ⟨m.knot, m.multiplicity + inc⟩

namespace Spline

variable [Field K] [LinearOrder K] {d p inc : Nat} {U : KnotVector K} {a b : K}
  {ms : List (KnotMultiplicity K)}

/-! ## §1. Clamped knots. -/

/-- Two full ends with breaks of at most the degree between them, all in order. -/
structure Clamped (p : Nat) (U : KnotVector K) (a b : K) (ms : List (KnotMultiplicity K)) :
    Prop where
  /-- The knots. -/
  values : U.values = List.replicate (p + 1) a ++ ms.flatMap KnotMultiplicity.occurrences
    ++ List.replicate (p + 1) b
  /-- Every break lies behind the one before. -/
  sorted : (⟨a, p + 1⟩ :: (ms ++ [⟨b, p + 1⟩])).Pairwise fun m m' : KnotMultiplicity K =>
    m.knot < m'.knot
  /-- No break is empty. -/
  pos : ∀ m ∈ ms, 0 < m.multiplicity
  /-- No break between the ends is full. -/
  le : ∀ m ∈ ms, m.multiplicity ≤ p

namespace Clamped

theorem values_eq (h : Clamped p U a b ms) :
    U.values = (⟨a, p + 1⟩ :: (ms ++ [⟨b, p + 1⟩])).flatMap KnotMultiplicity.occurrences := by
  rw [h.values, List.flatMap_cons, List.flatMap_append, List.append_assoc]
  simp [KnotMultiplicity.occurrences]

theorem ordered (h : Clamped p U a b ms) : U.Ordered := by
  rw [KnotVector.Ordered, h.values_eq, List.pairwise_flatMap]
  refine ⟨fun m _ => List.pairwise_replicate.2 (Or.inr (le_refl _)), h.sorted.imp ?_⟩
  intro m m' lt x hx y hy
  rw [List.eq_of_mem_replicate hx, List.eq_of_mem_replicate hy]
  exact lt.le

theorem full (h : Clamped p U a b ms) : Full p (ms ++ [⟨b, p + 1⟩]) := full_append h.pos h.le

theorem exists_cons (_ : Clamped p U a b ms) :
    ∃ m later, ms ++ [⟨b, p + 1⟩] = m :: later :=
  List.exists_cons_of_ne_nil (by simp)

/-- The breaks are the distinct knots. -/
theorem breaks_eq (h : Clamped p U a b ms) : breaks U = ⟨a, p + 1⟩ :: (ms ++ [⟨b, p + 1⟩]) := by
  rw [Spline.breaks_eq, h.values_eq]
  refine KnotVector.runs_flatMap (h.sorted.imp fun lt => lt.ne).isChain ?_
  intro m hm
  rcases List.mem_cons.1 hm with rfl | hm
  · exact Nat.succ_pos p
  · rcases List.mem_append.1 hm with hm | hm
    · exact h.pos m hm
    · rw [List.mem_singleton.1 hm]
      exact Nat.succ_pos p

theorem values_raised (h : Clamped p U a b ms) :
    (raisedKnots U inc).values = List.replicate (p + 1 + inc) a
      ++ (ms.flatMap fun m => List.replicate (m.multiplicity + inc) m.knot)
      ++ List.replicate (p + 1 + inc) b := by
  rw [raisedKnots, h.breaks_eq, List.flatMap_cons, List.flatMap_append, List.append_assoc]
  simp

/-- The raised knots are clamped in the higher degree. -/
theorem raised (h : Clamped p U a b ms) :
    Clamped (p + inc) (raisedKnots U inc) a b (ms.map (KnotMultiplicity.raise inc)) where
  values := by
    rw [h.values_raised, List.flatMap_map, Nat.add_right_comm]
    rfl
  sorted := by
    have sorted := List.pairwise_map.2 h.sorted
    rw [← List.pairwise_map] at sorted ⊢
    simpa [KnotMultiplicity.raise, Function.comp_def] using sorted
  pos := by
    intro m hm
    obtain ⟨m', hm', rfl⟩ := List.mem_map.1 hm
    exact Nat.add_pos_left (h.pos m' hm') inc
  le := by
    intro m hm
    obtain ⟨m', hm', rfl⟩ := List.mem_map.1 hm
    exact Nat.add_le_add_right (h.le m' hm') inc

theorem knot_start (h : Clamped p U a b ms) {r : Nat} (hr : r ≤ p) : U.knot r = a := by
  have length : r < (List.replicate (p + 1) a).length := by
    rw [List.length_replicate]
    omega
  rw [KnotVector.knot, h.values, List.append_assoc, List.getD_append _ _ _ _ length,
      List.getD_eq_getElem _ _ length, List.getElem_replicate]

theorem knot_finish (h : Clamped p U a b ms) {n : Nat} (size : U.size = n + p + 1) {r : Nat}
    (hr : r ≤ p) : U.knot (n + r) = b := by
  have total := congrArg List.length h.values
  change U.size = _ at total
  rw [List.length_append, List.length_replicate] at total
  have inside : n + r - (List.replicate (p + 1) a
      ++ ms.flatMap KnotMultiplicity.occurrences).length < (List.replicate (p + 1) b).length := by
    rw [List.length_replicate]
    omega
  rw [KnotVector.knot, h.values, List.getD_append_right _ _ _ _ (by omega),
      List.getD_eq_getElem _ _ inside, List.getElem_replicate]

/-- No knot is repeated more often than a full end. -/
theorem count_le (h : Clamped p U a b ms) (x : K) : U.count x ≤ p + 1 := by
  by_cases member : x ∈ U.values
  · obtain ⟨m, hm, copy⟩ := List.mem_flatMap.1 (h.values_eq ▸ member)
    obtain rfl : x = m.knot := List.eq_of_mem_replicate copy
    have run : m ∈ KnotVector.runs U.values := by rwa [← Spline.breaks_eq, h.breaks_eq]
    rw [KnotVector.count_eq_list_count, KnotVector.count_of_mem_runs h.ordered run]
    rcases List.mem_cons.1 hm with rfl | hm
    · exact le_refl _
    · rcases List.mem_append.1 hm with hm | hm
      · exact (h.le m hm).trans (Nat.le_succ p)
      · rw [List.mem_singleton.1 hm]
  · rw [KnotVector.count_eq_list_count, List.count_eq_zero_of_not_mem member]
    exact Nat.zero_le _

/-- Every control point acts on a span that is not empty. -/
theorem exists_span (h : Clamped p U a b ms) {n : Nat} (size : U.size = n + p + 1) {j : Nat}
    (hj : j < n) :
    ∃ i, p ≤ i ∧ i < n ∧ j ≤ i ∧ i ≤ j + p ∧ U.knot i < U.knot (i + 1) := by
  have ordered := h.ordered
  have copies := h.count_le (U.knot j)
  have split := KnotVector.countUpTo_eq U (U.knot j)
  have below : ¬j < U.countBelow (U.knot j) := fun e =>
    lt_irrefl _ ((ordered.knot_lt_iff (by omega)).2 e)
  have upTo := (ordered.knot_le_iff (i := j) (u := U.knot j) (by omega)).1 (le_refl _)
  -- the last knot of the run around `j`
  obtain ⟨i, hi⟩ : ∃ i, i + 1 = U.countUpTo (U.knot j) :=
    ⟨U.countUpTo (U.knot j) - 1, by omega⟩
  have run : U.knot i = U.knot j := (ordered.knot_eq_iff (by omega)).2 ⟨by omega, by omega⟩
  have inside : i < n := by
    by_contra beyond
    obtain ⟨r, rfl⟩ : ∃ r, i = n + r := ⟨i - n, by omega⟩
    have last : U.knot (n + p) = U.knot j := by
      rw [← run, h.knot_finish size (le_refl p), h.knot_finish size (by omega)]
    have reach := (ordered.knot_le_iff (i := n + p) (u := U.knot j) (by omega)).1 last.le
    omega
  have next : U.knot i < U.knot (i + 1) := by
    rw [run]
    refine not_le.1 fun e => ?_
    have := (ordered.knot_le_iff (by omega)).1 e
    omega
  refine ⟨i, ?_, inside, by omega, by omega, next⟩
  by_contra early
  rw [h.knot_start (by omega), h.knot_start (by omega)] at next
  exact lt_irrefl _ next

/-- The first span begins at the start. -/
theorem first_lt (h : Clamped p U a b ms) : ∀ x ∈ U.values.drop (p + 1), a < x := by
  rw [h.values, List.append_assoc, List.drop_left' (by simp)]
  intro x hx
  rcases List.mem_append.1 hx with hx | hx
  · obtain ⟨m, hm, hx⟩ := List.mem_flatMap.1 hx
    rw [List.eq_of_mem_replicate hx]
    exact List.rel_of_pairwise_cons h.sorted (List.mem_append_left _ hm)
  · rw [List.eq_of_mem_replicate hx]
    exact List.rel_of_pairwise_cons h.sorted
      (List.mem_append_right _ (List.mem_singleton.2 rfl))

/-- Raising adds `inc` copies of every knot. -/
theorem count_raised (h : Clamped p U a b ms) {x : K} (member : x ∈ U.values) :
    (raisedKnots U inc).count x = U.count x + inc := by
  have ordered := h.ordered
  obtain ⟨m, hm, rfl⟩ : ∃ m ∈ breaks U, m.knot = x := by
    rw [h.values_eq] at member
    obtain ⟨m, hm, copy⟩ := List.mem_flatMap.1 member
    exact ⟨m, h.breaks_eq ▸ hm, (List.eq_of_mem_replicate copy).symm⟩
  have hm' : m.raise inc ∈ breaks (raisedKnots U inc) := by
    rw [h.raised.breaks_eq]
    rw [h.breaks_eq] at hm
    have := List.mem_map_of_mem (f := KnotMultiplicity.raise inc) hm
    simpa [KnotMultiplicity.raise, Nat.add_right_comm] using this
  rw [Spline.breaks_eq] at hm hm'
  have count := KnotVector.count_of_mem_runs ordered hm
  have count' := KnotVector.count_of_mem_runs h.raised.ordered hm'
  rw [KnotVector.count_eq_list_count, KnotVector.count_eq_list_count, count]
  exact count'

theorem mem_raised (h : Clamped p U a b ms) {x : K} (member : x ∈ U.values) :
    x ∈ (raisedKnots U inc).values := by
  have more : (raisedKnots U inc).count x = U.count x + inc := h.count_raised member
  have one : 0 < U.count x := by
    rw [KnotVector.count_eq_list_count]
    exact List.count_pos_iff.2 member
  rw [KnotVector.count_eq_list_count] at more
  exact List.count_pos_iff.1 (by omega)

/-- Between the knots before and behind a stretch, raising holds `inc` copies more. -/
theorem count_le_raised (h : Clamped p U a b ms) {x : K} (member : x ∈ U.values) {j n : Nat}
    (notBefore : x ∉ (raisedKnots U inc).values.take j)
    (notAfter : x ∉ (raisedKnots U inc).values.drop (j + n)) :
    U.count x + inc ≤ (((raisedKnots U inc).values.drop j).take n).count x := by
  have cut : (raisedKnots U inc).values = (raisedKnots U inc).values.take j
      ++ (((raisedKnots U inc).values.drop j).take n
        ++ (raisedKnots U inc).values.drop (j + n)) := by
    rw [← List.drop_drop, List.take_append_drop, List.take_append_drop]
  rw [← h.count_raised member, KnotVector.count_eq_list_count]
  conv_lhs => rw [cut]
  rw [List.count_append, List.count_append, List.count_eq_zero_of_not_mem notBefore,
      List.count_eq_zero_of_not_mem notAfter]
  omega

end Clamped

/-! ## §2. The first front. -/

/-- The front at the start of a clamped spline. -/
def startFront {α : Type} (p : Nat) (a : α) (P : List (Point α)) : Front α where
  knot := a
  added := 0
  knotsBefore := [a]
  pointsBefore := P.take 1
  segment := P.take (p + 1)
  pointsAfter := P.drop (p + 1)

theorem reach_startFront {α : Type} (p : Nat) (a : α) (P : List (Point α)) :
    ((startFront p a P).added + 1) / 2 = 0 := by
  simp [startFront]

variable {P : List (Point K)} {F : Pieces K d p}

namespace Clamped

theorem raisedPoints_eq (h : Clamped p U a b ms) (head : (P.headD []).length = d) :
    raisedPoints ⟨p, U, P⟩ inc
      = raiseWithin (fun front => p + inc - front.added) p inc d (ms ++ [⟨b, p + 1⟩])
          (startFront p a P) := by
  rw [raisedPoints, h.breaks_eq, ← raiseSegments_eq]
  simp only [head]
  rfl

theorem drop_values (h : Clamped p U a b ms) :
    U.values.drop (p + 1)
      = (ms ++ [(⟨b, p + 1⟩ : KnotMultiplicity K)]).flatMap KnotMultiplicity.occurrences := by
  rw [h.values_eq, List.flatMap_cons, List.drop_left' (by simp)]

theorem total_eq (h : Clamped p U a b ms) (size : U.size = P.length + p + 1) :
    total (ms ++ [⟨b, p + 1⟩]) = P.length := by
  have length := congrArg List.length h.drop_values
  rw [List.length_drop] at length
  change U.size - (p + 1) = total _ at length
  omega

theorem lt_length (h : Clamped p U a b ms) (size : U.size = P.length + p + 1) :
    p < P.length := by
  obtain ⟨m, later, parts⟩ := h.exists_cons
  have full := h.full
  have total := h.total_eq size
  rw [parts] at full total
  have := full.le_total
  omega

theorem shaped_start (h : Clamped p U a b ms) (size : U.size = P.length + p + 1)
    (sized : AllSized d P) : (startFront p a P).Shaped d p (ms ++ [⟨b, p + 1⟩]) := by
  have enough := h.lt_length size
  have total := h.total_eq size
  refine ⟨Nat.zero_le _, ?_, Nat.one_pos, sized.take 1, fun _ => ⟨?_, sized.take _⟩,
    fun _ => ⟨?_, sized.drop _⟩⟩
  · rw [reach_startFront]
    show (P.take 1).length + 0 = 1
    rw [List.length_take]
    omega
  · show (P.take (p + 1)).length = p + 1
    rw [List.length_take]
    omega
  · show (P.drop (p + 1)).length + (p + 1) = _
    rw [List.length_drop]
    omega

theorem knotsFrom_start (h : Clamped p U a b ms) :
    knotsFrom p inc (startFront p a P) (ms ++ [⟨b, p + 1⟩]) = (raisedKnots U inc).values := by
  rw [h.values_raised, knotsFrom, if_neg (by simp)]
  show [a].reverse ++ List.replicate (p + inc - 0 + 0) a ++ _ = _
  rw [List.flatMap_append, show p + 1 + inc = p + inc + 1 by omega, List.replicate_succ]
  simp [Nat.add_right_comm]

/-! ## §3. The raised spline. -/

/-- Inside the spans of the raised knots one is inside the spans of the knots. -/
theorem inside_of_raised (h : Clamped p U a b ms) {n N : Nat} (size : U.size = n + p + 1)
    (size' : (raisedKnots U inc).size = N + (p + inc) + 1) {t : K}
    (inside : Inside (raisedKnots U inc) (p + inc) N t) : Inside U p n t := by
  obtain ⟨i, hi, hi', low, high⟩ := inside
  have ordered := h.ordered
  have ordered' : (raisedKnots U inc).Ordered := h.raised.ordered
  have start : U.knot p < t := by
    rw [h.knot_start (le_refl p), ← h.raised.knot_start (le_refl (p + inc))]
    exact lt_of_le_of_lt (ordered'.knot_le hi (by omega)) low
  have finish : t < U.knot n := by
    have last := h.raised.knot_finish size' (Nat.zero_le _)
    have last' := h.knot_finish size (Nat.zero_le _)
    rw [Nat.add_zero] at last last'
    rw [last', ← last]
    exact lt_of_lt_of_le high (ordered'.knot_le (by omega) (by omega))
  have apart : ∀ r < U.size, U.knot r ≠ t := by
    rintro r hr rfl
    have member : U.knot r ∈ (raisedKnots U inc).values := h.mem_raised (U.knot_mem hr)
    obtain ⟨s, hs, same⟩ := KnotVector.exists_knot_of_mem member
    rw [← same] at low high
    have := ordered'.lt_of_knot_lt (by omega) low
    have := ordered'.lt_of_knot_lt hs high
    omega
  have below := (ordered.knot_le_iff (by omega)).1 start.le
  have above : ¬n < U.countUpTo t := fun e =>
    absurd ((ordered.knot_le_iff (by omega)).2 e) (not_le.2 finish)
  refine ⟨U.countUpTo t - 1, by omega, by omega, lt_of_le_of_ne ?_ (apart _ (by omega)), ?_⟩
  · exact (ordered.knot_le_iff (by omega)).2 (by omega)
  · refine not_le.1 fun e => ?_
    have := (ordered.knot_le_iff (by omega)).1 e
    omega

/-- **Points that act rightly follow the elevated forms.** -/
theorem follows_raised (h : Clamped p U a b ms) (size : U.size = P.length + p + 1)
    (follows : Follows U P F) {points : List (Point K)}
    (size' : (raisedKnots U inc).size = points.length + (p + inc) + 1)
    (acts : ActsRightly U P.length p (p + inc) (fun t => (F t).elevate inc)
      (raisedKnots U inc).values points) :
    Follows (raisedKnots U inc) points fun t => (F t).elevate inc := by
  have ordered' : (raisedKnots U inc).Ordered := h.raised.ordered
  intro i hi hi' t low high j hj hj'
  obtain ⟨t₀, inside₀, before, after, value⟩ := acts j (by omega)
  have inside : Inside U p P.length t :=
    h.inside_of_raised size size' ⟨i, hi, hi', low, high⟩
  have stretched := stretch_eq_coe (raisedKnots U inc) (i := j + 1) (n := p + inc) (by omega)
  rw [value, ← stretched]
  refine congrArg _ ?_
  have earlier : ∀ x ∈ (raisedKnots U inc).values.take (j + 1), x < t := by
    intro x hx
    obtain ⟨r, hr, same⟩ := List.mem_iff_getElem.1 hx
    rw [List.length_take] at hr
    rw [List.getElem_take, ← KnotVector.knot_eq_getElem] at same
    rw [← same]
    exact lt_of_le_of_lt (ordered'.knot_le (by omega) (by omega)) low
  have later : ∀ x ∈ (raisedKnots U inc).values.drop (j + 1 + (p + inc)), t < x := by
    intro x hx
    obtain ⟨r, hr, same⟩ := List.mem_iff_getElem.1 hx
    rw [List.length_drop] at hr
    rw [List.getElem_drop, ← KnotVector.knot_eq_getElem] at same
    rw [← same]
    refine lt_of_lt_of_le high (ordered'.knot_le (by omega) ?_)
    show _ < (raisedKnots U inc).values.length
    omega
  have held : ∀ x ∈ U.values, x ∉ (raisedKnots U inc).values.take (j + 1) →
      x ∉ (raisedKnots U inc).values.drop (j + 1 + (p + inc)) →
      U.count x + inc ≤ (stretch (raisedKnots U inc).knot (j + 1) (p + inc)).count x := by
    intro x hx notBefore notAfter
    rw [stretched, Multiset.coe_count]
    exact h.count_le_raised hx notBefore notAfter
  -- between the two spans lie only knots that the stretch holds often enough, so the forms agree
  rcases lt_trichotomy t₀ t with lt | rfl | lt
  · exact follows.elevate_agree h.ordered size inside₀ inside lt (card_stretch _ _ _)
      fun x hx low' high' => held x hx (fun e => absurd (before x e) (not_lt.2 low'.le))
        fun e => absurd (later x e) (not_lt.2 high'.le)
  · rfl
  · exact (follows.elevate_agree h.ordered size inside inside₀ lt (card_stretch _ _ _)
      fun x hx low' high' => held x hx (fun e => absurd (earlier x e) (not_lt.2 low'.le))
        fun e => absurd (after x e) (not_lt.2 high'.le)).symm

variable [IsStrictOrderedRing K]

/-- The first control point is the value at the start, in any degree. -/
theorem first_point (inc : Nat) (h : Clamped p U a b ms) (size : U.size = P.length + p + 1)
    (follows : Follows U P F) {t : K} (low : a < t) (high : t < U.knot (p + 1)) :
    P.getD 0 [] = Point.ofVec ((F t).elevate inc (Multiset.replicate (p + inc) a)) := by
  have enough := h.lt_length size
  rw [PolarForm.elevate_diagonal,
      follows p (le_refl p) enough t (by rw [h.knot_start (le_refl p)]; exact low) high 0
        (Nat.zero_le p) (by omega),
      stretch_eq_replicate fun r hr => h.knot_start (by omega)]

theorem ready_start (h : Clamped p U a b ms) (size : U.size = P.length + p + 1)
    (follows : Follows U P F) : (startFront p a P).Ready U P F inc (p + 1) := by
  have enough := h.lt_length size
  refine ⟨Nat.lt_succ_self p, h.knot_start (le_refl p), rfl, ?_, ?_, ?_, ?_⟩
  · intro x hx
    rw [List.mem_singleton.1 hx]
    rfl
  · intro pos
    exact absurd pos (lt_irrefl 0)
  · intro t low high
    -- the first segment: its stretches begin with copies of the start
    show P.take (p + 1) = segmentRow (F t) a (U.values.drop (p + 1))
    refine List.ext_getElem ?_ fun j hj hj' => ?_
    · rw [List.length_take, length_segmentRow]
      omega
    · have small : j ≤ p := by
        rw [length_segmentRow] at hj'
        omega
      have point := follows p (le_refl p) enough t (by rw [h.knot_start (le_refl p)]; exact low)
        high j small (by omega)
      rw [List.getD_eq_getElem _ _ (by omega)] at point
      have knots : stretch U.knot (j + 1) p = Multiset.replicate (p - j) a
          + ((U.values.drop (p + 1)).take j : List K) := by
        have cut : stretch U.knot (j + 1) (p - j + j) = Multiset.replicate (p - j) a
            + stretch U.knot (p + 1) j := by
          rw [stretch_add, stretch_eq_replicate fun r hr => h.knot_start (by omega),
              show j + 1 + (p - j) = p + 1 by omega]
        rwa [Nat.sub_add_cancel small, stretch_eq_coe U (i := p + 1) (by omega)] at cut
      rw [List.getElem_take, point, knots]
      simp [segmentRow, triangleRow]
  · intro t low high e he
    -- one raised point so far, the value at the start
    obtain rfl : e = 0 := by
      change e ≤ 0 / 2 at he
      omega
    have point := h.first_point inc size follows low high
    have entry : (P.take 1).getD 0 [] = P.getD 0 [] := by
      simp [List.getD_eq_getElem?_getD]
    rw [reach_startFront]
    show (P.take 1).getD 0 [] = Point.ofVec ((F t).elevate inc
      (Multiset.replicate (p + inc) a + ([] : List K)))
    rw [entry, point, Multiset.coe_nil, add_zero]

theorem settled_start (h : Clamped p U a b ms) (size : U.size = P.length + p + 1)
    (follows : Follows U P F) :
    (startFront p a P).Settled U P.length p (p + inc) fun t => (F t).elevate inc := by
  have enough := h.lt_length size
  have lt : a < U.knot (p + 1) := h.first_lt _ (U.knot_mem_drop (by omega))
  obtain ⟨t, low, high⟩ := exists_between lt
  intro e he
  obtain rfl : e = 0 := by
    have one : (P.take 1).length ≤ 1 := by
      rw [List.length_take]
      exact Nat.min_le_left _ _
    have he' : e < (P.take 1).length := he
    omega
  refine ⟨t, ⟨p, le_refl p, enough, by rw [h.knot_start (le_refl p)]; exact low, high⟩, ?_, ?_,
    ?_⟩
  · intro x hx
    rw [reach_startFront] at hx
    simp at hx
  · intro x hx
    have last : ((startFront p a P).line (p + inc)).drop (p + inc) = [a] := by
      show (List.replicate (p + inc) a ++ [a]).drop (p + inc) = [a]
      rw [List.drop_left' List.length_replicate]
    rw [reach_startFront, Nat.zero_add, last] at hx
    rw [List.mem_singleton.1 hx]
    exact low
  · have entry : (P.take 1).getD 0 [] = P.getD 0 [] := by
      simp [List.getD_eq_getElem?_getD]
    rw [reach_startFront]
    show (P.take 1).getD 0 [] = Point.ofVec ((F t).elevate inc
      ((List.replicate (p + inc) a ++ [a]).take (p + inc) : List K))
    rw [entry, h.first_point inc size follows low high, List.take_left' List.length_replicate,
        Multiset.coe_replicate]

/-- The run begins at the first front. -/
theorem along_start (h : Clamped p U a b ms) (hp : 0 < p) (size : U.size = P.length + p + 1)
    (sized : AllSized d P) (follows : Follows U P F) :
    (startFront p a P).Along d U P F inc ⟨a, p + 1⟩ (ms ++ [⟨b, p + 1⟩]) (p + 1) :=
  ⟨h.ready_start size follows, h.shaped_start size sized, h.full, h.drop_values, h.sorted, rfl, hp⟩

/-- **From the first front on, all raised points are right.** -/
theorem actsRightly (h : Clamped p U a b ms) (hp : 0 < p) (size : U.size = P.length + p + 1)
    (sized : AllSized d P) (follows : Follows U P F) :
    ActsRightly U P.length p (p + inc) (fun t => (F t).elevate inc) (raisedKnots U inc).values
      (raiseWithin (fun _ => 0) p inc d (ms ++ [⟨b, p + 1⟩]) (startFront p a P)) := by
  have along : (startFront p a P).Along d U P F inc ⟨a, p + 1⟩ (ms ++ [⟨b, p + 1⟩]) (p + 1) :=
    h.along_start hp size sized follows
  rw [← h.knotsFrom_start (P := P)]
  obtain ⟨m, later, parts⟩ := h.exists_cons
  rw [parts] at along ⊢
  exact along.actsRightly (h.settled_start size follows) follows h.ordered size

end Clamped

end Spline

end RationalSpline
