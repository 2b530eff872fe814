/-
  RationalSpline.Proofs.BentLine
  ──────────────────────────────
  A STRAIGHT LINE THAT RAISING BENDS.

  The control points of a straight line lie on it, and so do all points that a run
  combines of them.  Where a sweep reaches past the copies of the break before, it
  places one point elsewhere on the line than the sweep in which every knot stands for
  itself, and no later sweep repairs that: the two lists of points agree beyond one
  entry and differ in it, from front to front.
-/
import RationalSpline.Proofs.Reach
import RationalSpline.Proofs.Uniqueness

namespace RationalSpline

variable {K V : Type} [Field K]

/-! ## §1. Lines. -/

namespace PolarForm

variable [AddCommGroup V] [Module K V] {p : Nat}

/-- The line through `o` in the direction `v`, run through with the speed `c * p`. -/
def line (o v : V) (c : K) : PolarForm K V p where
  toFun s := o + (c * s.sum) • v
  affine s a x y _ := by
    simp only [Multiset.sum_cons, mix, smul_eq_mul]
    module

theorem line_apply (o v : V) (c : K) (s : Multiset K) :
    (line o v c : PolarForm K V p) s = o + (c * s.sum) • v := rfl

end PolarForm

variable [LinearOrder K] {d p inc : Nat}

/-- A line in a higher degree. -/
theorem PolarForm.elevate_line [IsStrictOrderedRing K] (o v : Fin d → K) (hp : 0 < p)
    {s : Multiset K} (card : s.card = p + inc) :
    (line o v (((p + inc : Nat) : K) / p) : PolarForm K (Fin d → K) p).elevate inc s
      = o + s.sum • v := by
  have nonzero : (p : K) ≠ 0 := Nat.cast_ne_zero.2 (by omega)
  have same := PolarForm.eq_of_diagonal
    ((line o v (((p + inc : Nat) : K) / p) : PolarForm K (Fin d → K) p).elevate inc)
    (line o v 1) (zero_lt_one (α := K)) (fun t _ _ => by
      rw [PolarForm.elevate_diagonal, line_apply, line_apply, Multiset.sum_replicate,
          Multiset.sum_replicate, nsmul_eq_mul, nsmul_eq_mul]
      congr 2
      field_simp) card
  rw [same, line_apply, one_mul]

namespace Spline

/-- A point of the line through `o` in the direction `v`. -/
def OnLine (o v : Fin d → K) (x : Point K) : Prop := ∃ c : K, x = Point.ofVec (o + c • v)

variable {o v : Fin d → K}

theorem blend_onLine (a b c : K) :
    Point.blend a (Point.ofVec (o + b • v)) (Point.ofVec (o + c • v))
      = Point.ofVec (o + (mix a b c : K) • v) := by
  rw [Point.blend_ofVec]
  congr 1
  simp only [mix, smul_eq_mul]
  module

theorem OnLine.blend (a : K) (x y : Point K) (hx : OnLine o v x) (hy : OnLine o v y) :
    OnLine o v (Point.blend a x y) := by
  obtain ⟨b, rfl⟩ := hx
  obtain ⟨c, rfl⟩ := hy
  exact ⟨mix a b c, blend_onLine a b c⟩

/-- Different numbers are different points of a line. -/
theorem eq_of_onLine (hv : v ≠ 0) {b c : K}
    (h : Point.ofVec (o + b • v) = Point.ofVec (o + c • v)) : b = c := by
  have same := add_left_cancel (Point.ofVec_injective h)
  exact smul_left_injective K hv same

/-- A list of points of a line begins with one of them. -/
theorem exists_cons_of_onLine {l : List (Point K)} (on : ∀ x ∈ l, OnLine o v x)
    (pos : 0 < l.length) :
    ∃ (c : K) (rest : List (Point K)), l = Point.ofVec (o + c • v) :: rest := by
  obtain ⟨x, rest, rfl⟩ := List.exists_cons_of_ne_nil (List.ne_nil_of_length_pos pos)
  obtain ⟨c, rfl⟩ := on x List.mem_cons_self
  exact ⟨c, rest, rfl⟩

/-- Between two points of which the knot `k` makes different ones, another knot makes others. -/
theorem mix_ne_mix [IsStrictOrderedRing K] {a k n x b c : K} (below : k < a) (lt : a < n)
    (other : k ≠ x) (gap : (mix ((n - k) / (n - a)) b c : K) - b = k - n) :
    (mix ((n - x) / (n - a)) b c : K) ≠ mix ((n - k) / (n - a)) b c := by
  intro same
  have apart : c - b ≠ 0 := by
    intro zero
    obtain rfl : c = b := sub_eq_zero.1 zero
    have none : (mix ((n - k) / (n - a)) c c : K) = c := by
      simp only [mix, smul_eq_mul]
      ring
    rw [none, sub_self] at gap
    exact absurd (sub_eq_zero.1 gap.symm) (lt_trans below lt).ne
  have product : (k - x) / (n - a) * (c - b) = 0 := by
    have difference := sub_eq_zero.2 same
    simp only [mix, smul_eq_mul] at difference
    rw [← difference]
    ring
  rcases mul_eq_zero.1 product with zero | zero
  · exact other (sub_eq_zero.1 ((div_eq_zero_iff.1 zero).resolve_right (sub_ne_zero.2 lt.ne')))
  · exact apart zero

/-! ## §2. Two lists that differ in one entry of a line. -/

/-- The lists agree beyond one entry, and hold different points of the line in it. -/
def Parted (o v : Fin d → K) (A B : List (Point K)) : Prop :=
  ∃ (e : Nat) (b c : K) (rest : List (Point K)), b ≠ c ∧ (∀ x ∈ rest, OnLine o v x)
    ∧ A.drop e = Point.ofVec (o + b • v) :: rest ∧ B.drop e = Point.ofVec (o + c • v) :: rest

namespace Parted

variable {A B : List (Point K)}

theorem ne (h : Parted o v A B) (hv : v ≠ 0) : A ≠ B := by
  rintro rfl
  obtain ⟨e, b, c, rest, differ, -, first, second⟩ := h
  rw [first] at second
  exact differ (eq_of_onLine hv (List.cons.inj second).1)

theorem append (h : Parted o v A B) {l l' : List (Point K)} (same : l.length = l'.length) :
    Parted o v (l ++ A) (l' ++ B) := by
  obtain ⟨e, b, c, rest, differ, on, first, second⟩ := h
  refine ⟨l.length + e, b, c, rest, differ, on, ?_, ?_⟩
  · rw [← List.drop_drop, List.drop_left, first]
  · rw [same, ← List.drop_drop, List.drop_left, second]

end Parted

theorem drop_sweep (coefficients : List K) (points : List (Point K)) (e : Nat) :
    (sweep coefficients points).drop e = sweep (coefficients.drop e) (points.drop e) := by
  induction e generalizing coefficients points with
  | zero => rfl
  | succ e ih =>
      cases coefficients with
      | nil => cases points <;> rfl
      | cons a as =>
          cases points with
          | nil => simp [sweep]
          | cons x xs => exact ih as xs

namespace Parted

variable {A B : List (Point K)}

/-- A sweep with coefficients other than 0 keeps the difference. -/
theorem sweep (h : Parted o v A B) {coefficients : List K} (nonzero : ∀ a ∈ coefficients, a ≠ 0)
    (short : coefficients.length < B.length) :
    Parted o v (Spline.sweep coefficients A) (Spline.sweep coefficients B) := by
  obtain ⟨e, b, c, rest, differ, on, first, second⟩ := h
  have length := congrArg List.length second
  rw [List.length_drop, List.length_cons] at length
  cases reached : coefficients.drop e with
  | nil =>
      refine ⟨e, b, c, rest, differ, on, ?_, ?_⟩
      · rw [drop_sweep, reached, first, sweep_nil]
      · rw [drop_sweep, reached, second, sweep_nil]
  | cons a as =>
      have pos : a ≠ 0 :=
        nonzero a (List.mem_of_mem_drop (by rw [reached]; exact List.mem_cons_self))
      have length' := congrArg List.length reached
      rw [List.length_drop, List.length_cons] at length'
      have on' : ∀ x ∈ Spline.sweep as rest, OnLine o v x :=
        forall_mem_sweep OnLine.blend on (by omega)
      obtain ⟨s, ys, tail⟩ := exists_cons_of_onLine on' (by rw [length_sweep]; omega)
      refine ⟨e, mix a s b, mix a s c, Point.ofVec (o + s • v) :: ys, ?_, tail ▸ on', ?_, ?_⟩
      · intro same
        simp only [mix, smul_eq_mul] at same
        exact differ (mul_left_cancel₀ pos (add_left_cancel same))
      · rw [drop_sweep, reached, first, Spline.sweep]
        simp only [tail, List.headD_cons, blend_onLine]
      · rw [drop_sweep, reached, second, Spline.sweep]
        simp only [tail, List.headD_cons, blend_onLine]

theorem sweeps (h : Parted o v A B) {C : Nat → List K} {N : Nat}
    (nonzero : ∀ n < N, ∀ a ∈ C n, a ≠ 0) (length : ∀ n < N, (C n).length = n + 1)
    (short : N < B.length) : Parted o v (Spline.sweeps C N A) (Spline.sweeps C N B) := by
  induction N with
  | zero => exact h
  | succ N ih =>
      refine (ih (fun n hn => nonzero n (by omega)) (fun n hn => length n (by omega))
        (by omega)).sweep (nonzero N (Nat.lt_succ_self N)) ?_
      rw [length N (Nat.lt_succ_self N), length_sweeps]
      exact short

end Parted

/-! ## §3. The sweeps behind a front with seven added copies. -/

/-- Where the two nearest knots are equal, the two kinds of sweeps differ in the last
coefficient of the last sweep. -/
theorem mendAfter_reaching {front : Front K} (next : K) {raised : List (Point K)}
    (added : front.added = 7) (length : raised.length = 12)
    (same : front.knotsBefore.getD 0 0 = front.knotsBefore.getD 1 0)
    (on : ∀ x ∈ raised, OnLine o v x) :
    ∃ (b c : K) (rest : List (Point K)),
      mendAfter front next 0 raised
          = Point.ofVec (o + (mix (ratioAfter front next 0 2) b c : K) • v)
            :: Point.ofVec (o + b • v) :: rest
        ∧ mendAfter front next 4 raised
          = Point.ofVec (o + (mix (ratioAfter front next 0 0) b c : K) • v)
            :: Point.ofVec (o + b • v) :: rest := by
  have nearest : ∀ r ≤ 1, ratioAfter front next 4 r = ratioAfter front next 0 r := by
    intro r hr
    rw [ratioAfter, ratioAfter, if_pos (by omega), if_neg (Nat.not_lt_zero _)]
    interval_cases r
    · rfl
    · rw [same]
  have far : ratioAfter front next 4 2 = ratioAfter front next 0 0 := rfl
  have count : (front.added + 1) / 2 - 1 = 3 := by rw [added]
  have skip : front.added / 2 + 1 = 4 := by rw [added]
  -- the first two sweeps are the same
  obtain ⟨S, hS⟩ : ∃ S, sweeps (fun n => ((List.range (n + 1)).map
    (ratioAfter front next 0)).reverse) 2 (raised.drop 4) = S := ⟨_, rfl⟩
  have twice : sweeps (fun n => ((List.range (n + 1)).map (ratioAfter front next 4)).reverse) 2
      (raised.drop 4) = S := by
    rw [← hS]
    refine sweeps_congr (fun n hn => congrArg List.reverse (List.map_congr_left fun r hr => ?_)) _
    have := List.mem_range.1 hr
    exact nearest r (by omega)
  have onS : ∀ x ∈ S, OnLine o v x := by
    rw [← hS]
    exact forall_mem_sweeps OnLine.blend (fun x hx => on x (List.mem_of_mem_drop hx))
      (fun i _ => by simp) (by rw [List.length_drop]; omega)
  have lengthS : S.length = 8 := by
    rw [← hS, length_sweeps, List.length_drop]
    omega
  obtain ⟨c, S', rfl⟩ := exists_cons_of_onLine onS (by omega)
  -- the third sweep, up to its last coefficient
  obtain ⟨T, hT⟩ : ∃ T, sweep [ratioAfter front next 0 1, ratioAfter front next 0 0] S' = T :=
    ⟨_, rfl⟩
  have lengthT : T.length = 7 := by
    rw [← hT, length_sweep]
    simpa using lengthS
  have onT : ∀ x ∈ T, OnLine o v x := by
    rw [← hT]
    refine forall_mem_sweep OnLine.blend (fun x hx => onS x (List.mem_cons_of_mem _ hx)) ?_
    have : S'.length + 1 = 8 := lengthS
    simp only [List.length_cons, List.length_nil]
    omega
  obtain ⟨b, rest, rfl⟩ := exists_cons_of_onLine onT (by omega)
  refine ⟨b, c, rest, ?_, ?_⟩
  · rw [mendAfter, count, skip, sweeps, hS]
    show Point.blend (ratioAfter front next 0 2) ((sweep [ratioAfter front next 0 1,
        ratioAfter front next 0 0] S').headD []) (Point.ofVec (o + c • v))
      :: sweep [ratioAfter front next 0 1, ratioAfter front next 0 0] S' = _
    rw [hT, List.headD_cons, blend_onLine]
  · rw [mendAfter, count, skip, sweeps, twice]
    show Point.blend (ratioAfter front next 4 2) ((sweep [ratioAfter front next 4 1,
        ratioAfter front next 4 0] S').headD []) (Point.ofVec (o + c • v))
      :: sweep [ratioAfter front next 4 1, ratioAfter front next 4 0] S' = _
    rw [nearest 1 (le_refl 1), nearest 0 (Nat.zero_le 1), far, hT, List.headD_cons, blend_onLine]

/-! ## §4. The run. -/

/-- The front with other raised points so far. -/
def Front.withPoints (front : Front K) (points : List (Point K)) : Front K :=
  { front with pointsBefore := points }

/-- A step changes the points so far, and nothing else depends on them. -/
theorem Front.advance_withPoints (front : Front K) (A : List (Point K)) (r : Nat)
    (m : KnotMultiplicity K) (later : List (KnotMultiplicity K)) :
    (front.withPoints A).advance r p inc d m later
      = (front.advance 0 p inc d m later).withPoints
          ((front.withPoints A).advance r p inc d m later).pointsBefore := rfl

/-- The line whose points in the degree `p + inc` are `o` and the sum of their knots times
`v`. -/
def straight (p inc : Nat) (o v : Fin d → K) : Pieces K d p := fun _ =>
  PolarForm.line o v (((p + inc : Nat) : K) / p)

variable {U : KnotVector K} {P : List (Point K)} {front : Front K} {prev m : KnotMultiplicity K}
  {later : List (KnotMultiplicity K)} {y : Nat} {A : List (Point K)}

namespace Front.Along

/-- Points that differ in one entry still do so after a step. -/
theorem parted_advance (h : front.Along d U P (straight p inc o v) inc prev (m :: later) y)
    (parted : Parted o v A front.pointsBefore) (r : Nat) :
    Parted o v ((front.withPoints A).advance r p inc d m later).pointsBefore
      (front.advance 0 p inc d m later).pointsBefore := by
  have count := h.shaped.count
  have enough := h.shaped.enough
  have same : (front.withPoints A).added = front.added := rfl
  have mended : Parted o v (mendBefore (front.withPoints A) m.knot) (mendBefore front m.knot) := by
    refine parted.sweeps (fun n hn a ha => ?_) (fun i _ => by simp) (by omega)
    obtain ⟨e, he, rfl⟩ := List.mem_map.1 ha
    have small := List.mem_range.1 he
    have inside : (front.added + 1) / 2 + e < front.knotsBefore.length := by omega
    have below : front.knotsBefore.getD ((front.added + 1) / 2 + e) 0 < front.knot := by
      rw [List.getD_eq_getElem _ _ inside]
      exact h.ready.lt (by omega) _ (List.getElem_mem inside)
    exact div_ne_zero (sub_ne_zero.2 (lt_trans below h.lt_next).ne') (sub_ne_zero.2 below.ne')
  refine mended.append ?_
  rw [List.length_reverse, List.length_reverse, List.length_take, List.length_take]
  have size : ∀ s, (front.mended s p inc d m later).length = p + inc - front.added / 2 :=
    fun s => length_mended
  exact congrArg _ ((size r).trans (size 0).symm)

variable [IsStrictOrderedRing K]

/-- The raised polygon of a segment of the line. -/
theorem raised_onLine (h : front.Along d U P (straight p inc o v) inc prev (m :: later) y) :
    ∀ x ∈ raisePolygon d (shareRows p inc) (front.polygon p m later), OnLine o v x := by
  intro x hx
  obtain ⟨i, hi, rfl⟩ := List.mem_iff_getElem.1 hx
  have hi' : i ≤ p + inc := by
    rw [length_raisePolygon, length_shareRows] at hi
    omega
  obtain ⟨t, low, high⟩ := exists_between h.lt_next
  have value := h.ready.getD_raised (d := d) h.full h.values h.above low
    (by rw [h.knot_next]; exact high) hi'
  rw [List.getD_eq_getElem _ _ hi] at value
  have positive : 0 < p := lt_of_le_of_lt (Nat.zero_le _) h.added
  rw [value, straight, PolarForm.elevate_line o v positive (by
    rw [Multiset.card_add, Multiset.card_replicate, Multiset.card_replicate]
    omega)]
  exact ⟨_, rfl⟩

/-- From points on the line a step leads to points on the line. -/
theorem onLine_advance (h : front.Along d U P (straight p inc o v) inc prev (m :: later) y)
    (length : A.length = front.pointsBefore.length) (on : ∀ x ∈ A, OnLine o v x) (r : Nat) :
    ∀ x ∈ ((front.withPoints A).advance r p inc d m later).pointsBefore, OnLine o v x := by
  have count := h.shaped.count
  have enough := h.shaped.enough
  have added := h.added
  intro x hx
  rcases List.mem_append.1 hx with hx | hx
  · have member := List.mem_of_mem_take (List.mem_reverse.1 hx)
    refine forall_mem_sweeps OnLine.blend (fun z hz => h.raised_onLine z (List.mem_of_mem_drop hz))
      (fun i _ => by simp) ?_ x member
    rw [List.length_drop, length_raisePolygon, length_shareRows]
    show (front.added + 1) / 2 - 1 < p + inc + 1 - (front.added / 2 + 1)
    omega
  · refine forall_mem_sweeps OnLine.blend on (fun i _ => by simp) ?_ x hx
    show front.added / 2 < A.length
    omega

/-- After a step the run is at its end or goes on. -/
theorem next_or {F : Pieces K d p} (h : front.Along d U P F inc prev (m :: later) y)
    (follows : Follows U P F) (ordered : U.Ordered) (size : U.size = P.length + p + 1) :
    later = [] ∨ (front.advance 0 p inc d m later).Along d U P F inc m later
      (y + m.multiplicity) := by
  cases later with
  | nil => exact Or.inl rfl
  | cons m' later => exact Or.inr (h.advance follows ordered size)

/-- **No later segment repairs a point.** -/
theorem run_ne (h : later = [] ∨ front.Along d U P (straight p inc o v) inc prev later y)
    (size : U.size = P.length + p + 1) (ordered : U.Ordered)
    (follows : Follows U P (straight p inc o v)) (hv : v ≠ 0) (reach : Front K → Nat)
    (parted : Parted o v A front.pointsBefore) :
    raiseWithin reach p inc d later (front.withPoints A)
      ≠ raiseWithin (fun _ => 0) p inc d later front := by
  induction later generalizing front prev y A with
  | nil => exact fun same => parted.ne hv (List.reverse_injective same)
  | cons m later ih =>
      have along := h.resolve_left (by simp)
      rw [raiseWithin, raiseWithin, Front.advance_withPoints]
      exact ih (along.next_or follows ordered size)
        (along.parted_advance parted (reach (front.withPoints A)))

/-- All points of a run lie on the line. -/
theorem run_onLine (h : later = [] ∨ front.Along d U P (straight p inc o v) inc prev later y)
    (size : U.size = P.length + p + 1) (ordered : U.Ordered)
    (follows : Follows U P (straight p inc o v)) (reach : Front K → Nat)
    (length : A.length = front.pointsBefore.length) (on : ∀ x ∈ A, OnLine o v x) :
    ∀ x ∈ raiseWithin reach p inc d later (front.withPoints A), OnLine o v x := by
  induction later generalizing front prev y A with
  | nil => exact fun x hx => on x (List.mem_reverse.1 hx)
  | cons m later ih =>
      have along := h.resolve_left (by simp)
      rw [raiseWithin, Front.advance_withPoints]
      refine ih (along.next_or follows ordered size) ?_
        (along.onLine_advance length on (reach (front.withPoints A)))
      · show (List.reverse _ ++ mendBefore _ _).length = (List.reverse _ ++ mendBefore _ _).length
        rw [List.length_append, List.length_append, List.length_reverse, List.length_reverse,
            length_mendBefore, length_mendBefore, List.length_take, List.length_take, length_mended,
            length_mended]
        show _ + A.length = _
        rw [length]
        rfl

/-- Where every knot stands for itself, the mended points of a line are the sums of their knots. -/
theorem getD_mended (h : front.Along d U P (straight p inc o v) inc prev (m :: later) y)
    (positive : 0 < p) {i : Nat}
    (inside : i < p + inc - front.added / 2 - (p - m.multiplicity + 1) / 2) :
    (front.mended 0 p inc d m later).getD i []
      = Point.ofVec (o + (Multiset.replicate (front.added / 2 + 1 + i) m.knot
          + ((List.replicate (p + inc - front.added) front.knot ++ front.knotsBefore).take
              (p + inc - (front.added / 2 + 1 + i)) : List K)).sum • v) := by
  have count := h.shaped.count
  have enough := h.shaped.enough
  have added := h.added
  obtain ⟨e, he⟩ : ∃ e, e + i + 1 = p + inc - front.added / 2 - (p - m.multiplicity + 1) / 2 :=
    ⟨p + inc - front.added / 2 - (p - m.multiplicity + 1) / 2 - 1 - i, by omega⟩
  obtain ⟨t, low, high⟩ := exists_between h.lt_next
  have point := h.ready.getD_advance_near h.shaped h.full h.added h.values h.above low
    (by rw [h.knot_next]; exact high) (e := e) (by omega)
  rw [getD_advance, if_pos (by omega), ← he, show e + i + 1 - 1 - e = i by omega,
      show (p - m.multiplicity + 1) / 2 + e = p + inc - (front.added / 2 + 1 + i) by omega,
      show p + inc - (p + inc - (front.added / 2 + 1 + i)) = front.added / 2 + 1 + i by omega]
    at point
  rw [point, straight, PolarForm.elevate_line o v positive (by
    rw [Multiset.card_add, Multiset.card_replicate, Multiset.coe_card, List.length_take,
        List.length_append, List.length_replicate]
    omega)]

/-- **Behind a pair of breaks that reaches past, the two kinds of sweeps part.** -/
theorem parted_of_reachesPast (h : front.Along d U P (straight p inc o v) inc prev (m :: later) y)
    (hv : v ≠ 0) (degree : p = 10) (grows : inc = 1) (seven : front.added = 7) {x : K} {K₂ : K}
    {before : List K} (knots : front.knotsBefore = x :: x :: K₂ :: before) (other : K₂ ≠ x)
    (on : ∀ x ∈ front.pointsBefore, OnLine o v x) :
    Parted o v (front.advance 4 p inc d m later).pointsBefore
      (front.advance 0 p inc d m later).pointsBefore := by
  subst degree grows
  have lt := h.lt_next
  have pos : 0 < m.multiplicity := by cases h.full <;> omega
  have below : K₂ < front.knot := h.ready.lt (by omega) _ (by rw [knots]; simp)
  obtain ⟨b, c, rest, mended, reaching⟩ := mendAfter_reaching m.knot seven
    (by simp : (raisePolygon d (shareRows 10 1) (front.polygon 10 m later)).length = 12)
    (by rw [knots]; rfl) h.raised_onLine
  change front.mended 0 10 1 d m later = _ at mended
  change front.mended 4 10 1 d m later = _ at reaching
  obtain ⟨k, kept⟩ : ∃ k, 10 + 1 - front.added / 2 - (10 - m.multiplicity + 1) / 2 = k + 2 :=
    ⟨6 - (10 - m.multiplicity + 1) / 2, by omega⟩
  -- the two points in question, where every knot stands for itself
  have first := h.getD_mended (by omega) (i := 0) (by omega)
  have second := h.getD_mended (by omega) (i := 1) (by omega)
  rw [mended, knots, seven] at first second
  have far : ratioAfter front m.knot 0 2 = (m.knot - K₂) / (m.knot - front.knot) := by
    rw [ratioAfter, knots]
    rfl
  have near : ratioAfter front m.knot 0 0 = (m.knot - x) / (m.knot - front.knot) := by
    rw [ratioAfter, knots]
    rfl
  have gap : (mix (ratioAfter front m.knot 0 2) b c : K) - b = K₂ - m.knot := by
    rw [eq_of_onLine hv first, eq_of_onLine hv second]
    simp [List.replicate]
    ring
  have differ : (mix (ratioAfter front m.knot 0 0) b c : K)
      ≠ mix (ratioAfter front m.knot 0 2) b c := by
    rw [far] at gap ⊢
    rw [near]
    exact mix_ne_mix below lt other gap
  -- they are the last that are kept, so the lists read from the front differ in one entry
  have lengthRest : rest.length + 2 = 8 := by
    have total : (front.mended 0 10 1 d m later).length = 10 + 1 - front.added / 2 := length_mended
    rw [mended, seven] at total
    simpa using total
  have cut : ∀ z : Point K, ((z :: Point.ofVec (o + b • v) :: rest).take (k + 2)).reverse
      = ((Point.ofVec (o + b • v) :: rest).take (k + 1)).reverse ++ [z] := by
    intro z
    rw [List.take_succ_cons, List.reverse_cons]
  have lengthCut : ((Point.ofVec (o + b • v) :: rest).take (k + 1)).reverse.length = k + 1 := by
    rw [List.length_reverse, List.length_take, List.length_cons]
    omega
  refine ⟨k + 1, _, _, mendBefore front m.knot, differ, ?_, ?_, ?_⟩
  · refine forall_mem_sweeps OnLine.blend on (fun i _ => by simp) ?_
    have count := h.shaped.count
    have enough := h.shaped.enough
    omega
  · show (((front.mended 4 10 1 d m later).take _).reverse ++ mendBefore front m.knot).drop (k + 1)
      = _
    rw [kept, reaching, cut, List.append_assoc, List.drop_left' lengthCut]
    rfl
  · show (((front.mended 0 10 1 d m later).take _).reverse ++ mendBefore front m.knot).drop (k + 1)
      = _
    rw [kept, mended, cut, List.append_assoc, List.drop_left' lengthCut]
    rfl

/-- **A run with such a pair goes wrong.** -/
theorem run_ne_of_reachesPast
    (h : front.Along d U P (straight p inc o v) inc prev later y)
    (size : U.size = P.length + p + 1) (ordered : U.Ordered)
    (follows : Follows U P (straight p inc o v)) (hv : v ≠ 0) (bound : p + inc ≤ 11)
    (grows : 0 < inc) (plain : front.Plain p inc) (previous : front.added = p - prev.multiplicity)
    (on : ∀ x ∈ front.pointsBefore, OnLine o v x)
    (bad : ¬(prev :: later).IsChain fun m m' => ¬ReachesPast p inc m m') :
    raiseWithin (fun front => p + inc - front.added) p inc d later front
      ≠ raiseWithin (fun _ => 0) p inc d later front := by
  induction later generalizing front prev y with
  | nil => exact absurd (List.IsChain.singleton prev) bad
  | cons m later ih =>
      have added := h.added
      rw [raiseWithin, raiseWithin, plain.advance_eq]
      obtain ⟨m', later, rfl⟩ | none : (∃ m' rest, later = m' :: rest) ∨ later = [] := by
        cases later with
        | nil => exact Or.inr rfl
        | cons m' rest => exact Or.inl ⟨m', rest, rfl⟩
      · have next := h.advance follows ordered size
        have on' : ∀ x ∈ (front.advance 0 p inc d m (m' :: later)).pointsBefore, OnLine o v x :=
          h.onLine_advance rfl on 0
        by_cases reaches : ReachesPast p inc prev m
        · obtain ⟨rfl, rfl, one, three⟩ := (reachesPast_iff bound grows (by omega)).1 reaches
          have enough := h.shaped.enough
          obtain ⟨K₂, before, knots⟩ := List.exists_cons_of_ne_nil
            (List.ne_nil_of_length_pos (l := front.knotsBefore) (by omega))
          have seven : (front.advance 0 10 1 d m (m' :: later)).added = 7 := by
            show 10 - m.multiplicity = 7
            omega
          have stack : (front.advance 0 10 1 d m (m' :: later)).knotsBefore
              = front.knot :: front.knot :: K₂ :: before := by
            show List.replicate (10 + 1 - front.added) front.knot ++ front.knotsBefore = _
            rw [knots, show 10 + 1 - front.added = 2 by omega]
            rfl
          have parted := next.parted_of_reachesPast hv rfl rfl seven stack
            (h.ready.lt (by omega) K₂ (by rw [knots]; exact List.mem_cons_self)).ne on'
          rw [raiseWithin, raiseWithin, seven]
          exact run_ne (next.next_or follows ordered size) size ordered follows hv _ parted
        · exact ih next (Front.plain_advance previous reaches) rfl on' fun chain =>
            bad (List.isChain_cons_cons.2 ⟨reaches, chain⟩)
      · -- the last break is full
        subst none
        have full : m.multiplicity = p + 1 := by
          cases h.full with
          | last full => exact full
        refine absurd (List.isChain_pair.2 fun reaches => ?_) bad
        have := (reachesPast_iff bound grows (by omega)).1 reaches
        omega

end Front.Along

/-! ## §5. Whole runs on clamped knots. -/

namespace Clamped

variable [IsStrictOrderedRing K] {a b : K} {ms : List (KnotMultiplicity K)}

/-- A run over a line starts on it. -/
theorem onLine_start (h : Clamped p U a b ms) (positive : 0 < p)
    (size : U.size = P.length + p + 1) (follows : Follows U P (straight p inc o v)) :
    ∀ x ∈ (startFront p a P).pointsBefore, OnLine o v x := by
  intro x hx
  have enough := h.lt_length size
  obtain ⟨t, low, high⟩ :=
    exists_between (h.first_lt _ (U.knot_mem_drop (i := p + 1) (by omega)))
  have head := h.first_point inc size follows low high
  rw [straight, PolarForm.elevate_line _ _ positive (Multiset.card_replicate _ _)] at head
  obtain rfl : x = P.getD 0 [] := by
    cases P with
    | nil => simp [startFront] at hx
    | cons y rest => simpa [startFront] using hx
  exact ⟨_, head⟩

/-- So all its points lie on the line, whatever the reach of its sweeps. -/
theorem onLine_raised (h : Clamped p U a b ms) (positive : 0 < p)
    (size : U.size = P.length + p + 1) (sized : AllSized d P)
    (follows : Follows U P (straight p inc o v)) (reach : Front K → Nat) :
    ∀ x ∈ raiseWithin reach p inc d (ms ++ [⟨b, p + 1⟩]) (startFront p a P), OnLine o v x :=
  Front.Along.run_onLine (Or.inr (h.along_start positive size sized follows)) size h.ordered
    follows reach rfl (h.onLine_start positive size follows)

/-- **A single break before a triple one makes the two kinds of sweeps differ.** -/
theorem raised_ne (h : Clamped p U a b ms) (ten : p = 10) (one : inc = 1)
    (pair : ∃ x y, [⟨x, 1⟩, ⟨y, 3⟩] <:+: ms) (size : U.size = P.length + p + 1)
    (sized : AllSized d P) (follows : Follows U P (straight p inc o v)) (hv : v ≠ 0) :
    raiseWithin (fun front => p + inc - front.added) p inc d (ms ++ [⟨b, p + 1⟩])
        (startFront p a P)
      ≠ raiseWithin (fun _ => 0) p inc d (ms ++ [⟨b, p + 1⟩]) (startFront p a P) :=
  (h.along_start (by omega) size sized follows).run_ne_of_reachesPast size h.ordered follows hv
    (by omega) (by omega) (plain_startFront _ _ _ _) (by show 0 = p - (p + 1); omega)
    (h.onLine_start (by omega) size follows)
    fun chain => (isChain_iff (by omega) (by omega) h.pos).1 chain ⟨ten, one, pair⟩

end Clamped

end Spline

end RationalSpline
