/-
  RationalSpline.Proofs.RaisedJoint
  ─────────────────────────────────
  RAISING ACROSS A FULL KNOT.

  Elevation mends what it has raised on both sides of a break, as far as copies of the
  break were added.  At a full knot none is: what lies behind it no longer changes, and
  what follows starts like a spline of its own.  So a spline with a full knot inside is
  raised to its two raised parts, and the control point at the knot stays.
-/
import RationalSpline.Proofs.RaisedMaps

namespace RationalSpline.Spline

variable {K : Type} [Field K] [LinearOrder K] {d p inc : Nat} {reach : Front K → Nat}

/-! ## §1. What sweeps leave as it is. -/

/-- Entries behind those that a sweep reaches stay. -/
theorem sweep_append {coefficients : List K} {points : List (Point K)}
    (short : coefficients.length < points.length) (behind : List (Point K)) :
    sweep coefficients (points ++ behind) = sweep coefficients points ++ behind := by
  induction coefficients generalizing points with
  | nil => simp
  | cons a rest ih =>
      cases points with
      | nil => simp at short
      | cons x xs =>
          have short' : rest.length < xs.length := by simpa using short
          obtain ⟨y, ys, parts⟩ : ∃ y ys, sweep rest xs = y :: ys :=
            List.exists_cons_of_length_pos (by rw [length_sweep]; omega)
          rw [List.cons_append, sweep, ih short', sweep, parts]
          rfl

theorem sweeps_append {coefficients : Nat → List K} {n : Nat} {points : List (Point K)}
    (length : ∀ i < n, (coefficients i).length = i + 1) (short : n < points.length)
    (behind : List (Point K)) :
    sweeps coefficients n (points ++ behind) = sweeps coefficients n points ++ behind := by
  induction n with
  | zero => rfl
  | succ n ih =>
      rw [sweeps, ih (fun i hi => length i (by omega)) (by omega), sweeps, sweep_append]
      rw [length n (Nat.lt_succ_self n), length_sweeps]
      exact short

omit [Field K] [LinearOrder K] in
theorem getLast?_eq_some_getD {l : List (Point K)} (nonempty : 0 < l.length) :
    l.getLast? = some (l.getD (l.length - 1) []) := by
  rw [List.getLast?_eq_getElem?, List.getElem?_eq_getElem (by omega),
      List.getD_eq_getElem _ _ (by omega)]

/-- The last entry is in the reach of no sweep. -/
theorem getLast?_sweeps {coefficients : Nat → List K} {n : Nat} {points : List (Point K)}
    (length : ∀ i < n, (coefficients i).length = i + 1) (short : n < points.length) :
    (sweeps coefficients n points).getLast? = points.getLast? := by
  rw [getLast?_eq_some_getD (by rw [length_sweeps]; omega), getLast?_eq_some_getD (by omega),
      length_sweeps, getD_sweeps_beyond short length (by omega)]

variable (inc) in
/-- The last control point is the same in every degree. -/
theorem getLast?_raisePolygon {polygon : List (Point K)} (length : polygon.length = p + 1)
    (sized : AllSized d polygon) :
    (raisePolygon d (shareRows p inc) polygon).getLast? = polygon.getLast? := by
  obtain ⟨init, last, rfl⟩ := (List.eq_nil_or_concat' polygon).resolve_left (by
    rintro rfl
    simp at length)
  have before : init.length = p := by simpa using length
  have size : last.length = d := sized last (by simp)
  have one : (share p inc (p + inc) p : K) = 1 := by
    rw [share_eq (le_refl p) (Nat.le_add_right p inc) (le_refl _), Nat.add_sub_cancel_left]
    simp
  have row : (List.range' (p + inc - inc) (min p (p + inc) + 1 - (p + inc - inc))).map
      (share p inc (p + inc)) = [(1 : K)] := by
    rw [Nat.add_sub_cancel, Nat.min_eq_left (Nat.le_add_right p inc), Nat.add_sub_cancel_left]
    simp [one]
  have value : Point.combine d [1] [last] = last := by
    show Point.add (Point.zero d) (Point.scale last 1) = last
    rw [Point.scale_one, Point.zero, Point.add]
    exact List.ext_getElem (by simp [size]) fun i _ _ => by simp
  rw [raisePolygon, shareRows, List.range_succ, List.map_append, List.map_append]
  simp only [List.map_cons, List.map_nil, List.getLast?_concat]
  rw [row, Nat.add_sub_cancel, List.drop_left' before, value]

/-! ## §2. What lies far behind a front. -/

section Behind

variable {front front' : Front K} {Z : List (Point K)} {m : KnotMultiplicity K}
  {later : List (KnotMultiplicity K)}

/-- `front'` has further control points `Z` behind `front`, and may have other knots there,
but none that the sweeps at the front read. -/
structure Front.Continues (front front' : Front K) (Z : List (Point K)) : Prop where
  /-- The same knot. -/
  knot : front'.knot = front.knot
  /-- As many copies of it were added. -/
  added : front'.added = front.added
  /-- The knots nearby agree. -/
  knots : ∀ i < front.added, front'.knotsBefore.getD i 0 = front.knotsBefore.getD i 0
  /-- The raised points go on. -/
  points : front'.pointsBefore = front.pointsBefore ++ Z
  /-- The same segment. -/
  segment : front'.segment = front.segment
  /-- The same points after it. -/
  after : front'.pointsAfter = front.pointsAfter

/-- The sweeps at a front leave alone what lies far behind it. -/
theorem Front.Continues.advance (h : Front.Continues front front' Z)
    (shaped : front.Shaped d p (m :: later)) (r : Nat) :
    Front.Continues (front.advance r p inc d m later) (front'.advance r p inc d m later) Z := by
  have added := shaped.added_le
  have count := shaped.count
  have enough := shaped.enough
  have triangle : front'.triangle p m later = front.triangle p m later := by
    rw [Front.triangle, h.knot, h.segment, Front.triangle]
  -- the sweeps read only knots nearer than the copies that are added
  have mended : front'.mended r p inc d m later = front.mended r p inc d m later := by
    rw [Front.mended, Front.polygon, triangle, h.segment, Front.mended, Front.polygon, mendAfter,
        mendAfter, h.added]
    refine sweeps_congr (fun n hn => congrArg List.reverse (List.map_congr_left fun i hi => ?_)) _
    have small := List.mem_range.1 hi
    have near : (if i + 1 < r then 0 else i) < front.added := by
      split <;> omega
    rw [ratioAfter, h.knots _ near, h.knot, ratioAfter]
  have before : mendBefore front' m.knot = mendBefore front m.knot ++ Z := by
    rw [mendBefore, h.added, h.points, sweeps_append (fun i _ => by simp) (by omega), mendBefore]
    refine congrArg (· ++ Z) (sweeps_congr (fun n hn => List.map_congr_left fun i hi => ?_) _)
    have small := List.mem_range.1 hi
    rw [ratioBefore, h.knots _ (by omega), h.knot, ratioBefore]
  refine ⟨rfl, rfl, fun i hi => ?_, ?_, ?_, ?_⟩
  · have hi' : i < p - m.multiplicity := hi
    show (List.replicate (p + inc - front'.added) front'.knot ++ front'.knotsBefore).getD i 0
      = (List.replicate (p + inc - front.added) front.knot ++ front.knotsBefore).getD i 0
    rw [h.added, h.knot]
    by_cases copies : i < p + inc - front.added
    · rw [List.getD_append _ _ _ _ (by simpa using copies),
          List.getD_append _ _ _ _ (by simpa using copies)]
    · rw [List.getD_append_right _ _ _ _ (by simpa using copies),
          List.getD_append_right _ _ _ _ (by simpa using copies), List.length_replicate]
      exact h.knots _ (by omega)
  · show _ ++ mendBefore front' m.knot = _ ++ mendBefore front m.knot ++ Z
    rw [mended, h.added, before, List.append_assoc]
  · show (List.filterMap List.getLast? _).reverse ++ front'.pointsAfter.take _ = _
    rw [triangle, h.after]
    rfl
  · exact congrArg (List.drop m.multiplicity) h.after

/-- **What lies far behind a front comes first in the end.** -/
theorem Front.Continues.raiseWithin_eq (h : Front.Continues front front' Z)
    (same : ∀ a b : Front K, a.added = b.added → reach a = reach b)
    (shaped : front.Shaped d p later) (full : Full p later) :
    raiseWithin reach p inc d later front'
      = Z.reverse ++ raiseWithin reach p inc d later front := by
  induction later generalizing front front' with
  | nil =>
      rw [raiseWithin, h.points, List.reverse_append, raiseWithin]
  | cons m later ih =>
      rw [raiseWithin, same front' front h.added, raiseWithin]
      exact ih (h.advance shaped _) (shaped.advance full) full.tail

/-- The first of the raised points is the first that was there. -/
theorem head?_raiseWithin (shaped : front.Shaped d p later) (full : Full p later) :
    (raiseWithin reach p inc d later front).head? = front.pointsBefore.getLast? := by
  induction later generalizing front with
  | nil => rw [raiseWithin, List.head?_reverse]
  | cons m later ih =>
      have count := shaped.count
      have enough := shaped.enough
      have kept : (mendBefore front m.knot).getLast? = front.pointsBefore.getLast? :=
        getLast?_sweeps (fun i _ => by simp) (by omega)
      have some : mendBefore front m.knot ≠ [] := List.ne_nil_of_length_pos (by
        rw [length_mendBefore]
        omega)
      rw [raiseWithin, ih (shaped.advance full) full.tail]
      show (_ ++ mendBefore front m.knot).getLast? = _
      rw [List.getLast?_append_of_ne_nil _ some, kept]

end Behind

/-! ## §3. At a full knot. -/

section Joint

variable {front : Front K} {t : K} {later ms : List (KnotMultiplicity K)}

/-- The front with further control points after those it has. -/
def Front.followedBy (front : Front K) (points : List (Point K)) : Front K :=
  { front with pointsAfter := front.pointsAfter ++ points }

omit [Field K] [LinearOrder K] in
/-- In front of the end there are no points after the segment. -/
theorem Front.Shaped.pointsAfter_eq_nil (shaped : front.Shaped d p [⟨t, p + 1⟩]) :
    front.pointsAfter = [] := by
  have count := (shaped.after (by simp)).1
  simp only [total, List.flatMap_cons, List.flatMap_nil, List.append_nil,
    KnotMultiplicity.length_occurrences] at count
  exact List.length_eq_zero_iff.1 (by omega)

omit [Field K] [LinearOrder K] in
theorem startFront_append {a : K} {points behind : List (Point K)} (enough : p < points.length) :
    startFront p a (points ++ behind) = (startFront p a points).followedBy behind := by
  have enough' : p + 1 ≤ points.length := enough
  simp only [startFront, Front.followedBy, List.take_append_of_le_length enough',
    List.drop_append_of_le_length enough',
    List.take_append_of_le_length (show 1 ≤ points.length by omega)]

variable (t later) in
/-- The points of a segment that ends at a full knot are its polygon. -/
theorem polygon_full (segment : front.segment.length = p + 1) :
    front.polygon p ⟨t, p⟩ later = front.segment
      ∧ (front.triangle p ⟨t, p⟩ later).filterMap List.getLast? = front.segment.drop p
      ∧ front.polygon p ⟨t, p + 1⟩ later = front.segment := by
  obtain ⟨last, single⟩ : ∃ last, front.segment.drop p = [last] :=
    List.length_eq_one_iff.1 (by rw [List.length_drop]; omega)
  have beyond : front.segment.drop (p + 1) = [] := List.drop_eq_nil_of_le (by omega)
  refine ⟨?_, ?_, ?_⟩
  · rw [Front.polygon, Front.triangle, Nat.sub_self]
    simp only [levels, single, List.filterMap_cons, List.head?_cons, List.filterMap_nil]
    rw [← single, List.take_append_drop]
  · rw [Front.triangle, Nat.sub_self]
    simp [levels, single]
  · rw [Front.polygon, Front.triangle, Nat.sub_eq_zero_of_le (Nat.le_succ p)]
    simp only [levels, beyond, List.filterMap_cons, List.head?_nil, List.filterMap_nil]
    rw [List.append_nil, List.take_of_length_le segment.le]

/-- All raised points of the last segment are kept, and the last of them is its last. -/
theorem head?_advance_last (hp : 0 < p) (shaped : front.Shaped d p [⟨t, p + 1⟩]) (r : Nat) :
    (front.advance r p inc d ⟨t, p + 1⟩ []).pointsBefore.head? = front.segment.getLast? := by
  obtain ⟨segment, sized⟩ := shaped.segment (by simp)
  have added := shaped.added_le
  have none : p - (p + 1) = 0 := Nat.sub_eq_zero_of_le (Nat.le_succ p)
  have length : (front.mended r p inc d ⟨t, p + 1⟩ []).length = p + inc - front.added / 2 :=
    length_mended
  have some : front.mended r p inc d ⟨t, p + 1⟩ [] ≠ [] :=
    List.ne_nil_of_length_pos (by omega)
  have last : (front.mended r p inc d ⟨t, p + 1⟩ []).getLast? = front.segment.getLast? := by
    have raised := getLast?_raisePolygon inc segment sized
    have long : (raisePolygon d (shareRows p inc) front.segment).length = p + inc + 1 := by
      rw [length_raisePolygon, length_shareRows]
    rw [Front.mended, (polygon_full t [] segment).2.2, mendAfter,
        getLast?_sweeps (fun i _ => by simp) (by rw [List.length_drop, long]; omega),
        List.getLast?_drop, if_neg (by omega), raised]
  show (((front.mended r p inc d ⟨t, p + 1⟩ []).take
    (p + inc - front.added / 2 - (p - (p + 1) + 1) / 2)).reverse ++ _).head? = _
  rw [none, List.take_of_length_le (by omega), List.head?_append_of_ne_nil _ (by simpa using some),
      List.head?_reverse, last]

omit [Field K] [LinearOrder K] in
/-- In front of another break there are points for it after the segment. -/
theorem Front.Shaped.le_after {m : KnotMultiplicity K}
    (shaped : front.Shaped d p (m :: (ms ++ [⟨t, p + 1⟩]))) :
    m.multiplicity ≤ front.pointsAfter.length := by
  have after := (shaped.after (by simp)).1
  have enough : p + 1 ≤ total (ms ++ [⟨t, p + 1⟩]) := by
    rw [total, List.flatMap_append, List.length_append]
    simp
  rw [total_cons] at after
  omega

/-- A step in front of a full knot leaves the points behind that knot where they are. -/
theorem Front.advance_followedBy {m : KnotMultiplicity K}
    (shaped : front.Shaped d p (m :: (ms ++ [⟨t, p + 1⟩]))) (pos : 0 < m.multiplicity) (r : Nat)
    (later : List (KnotMultiplicity K)) (points : List (Point K)) :
    (front.followedBy points).advance r p inc d m (ms ++ ⟨t, p⟩ :: later)
      = (front.advance r p inc d m (ms ++ [⟨t, p + 1⟩])).followedBy points := by
  have inside := shaped.le_after
  -- the triangle reads no knot behind the full one, and the segment takes no point from there
  have beyond : (((ms ++ ⟨t, p⟩ :: later).flatMap KnotMultiplicity.occurrences).take
        (p - m.multiplicity))
      = ((ms ++ [(⟨t, p + 1⟩ : KnotMultiplicity K)]).flatMap
          KnotMultiplicity.occurrences).take (p - m.multiplicity) := by
    have within : p - m.multiplicity
        ≤ (ms.flatMap KnotMultiplicity.occurrences ++ List.replicate p t).length := by
      rw [List.length_append, List.length_replicate]
      omega
    simp only [List.flatMap_append, List.flatMap_cons, List.flatMap_nil, List.append_nil,
      KnotMultiplicity.occurrences]
    rw [List.replicate_succ', ← List.append_assoc, ← List.append_assoc,
        List.take_append_of_le_length within, List.take_append_of_le_length within]
  have triangle : (front.followedBy points).triangle p m (ms ++ ⟨t, p⟩ :: later)
      = front.triangle p m (ms ++ [⟨t, p + 1⟩]) := by
    rw [Front.triangle, beyond]
    rfl
  have mended : (front.followedBy points).mended r p inc d m (ms ++ ⟨t, p⟩ :: later)
      = front.mended r p inc d m (ms ++ [⟨t, p + 1⟩]) := by
    rw [Front.mended, Front.polygon, triangle]
    rfl
  have segment : (front.followedBy points).pointsAfter.take m.multiplicity
      = front.pointsAfter.take m.multiplicity := List.take_append_of_le_length inside
  have behind : (front.followedBy points).pointsAfter.drop m.multiplicity
      = front.pointsAfter.drop m.multiplicity ++ points :=
    List.drop_append_of_le_length inside
  unfold Front.advance
  rw [mended, triangle, segment, behind]
  rfl

/-- A step only moves points from behind the segment to its end. -/
theorem Front.getLast?_advance {m : KnotMultiplicity K} (nonempty : front.pointsAfter ≠ [])
    (r : Nat) (later : List (KnotMultiplicity K)) :
    ((front.advance r p inc d m later).segment
        ++ (front.advance r p inc d m later).pointsAfter).getLast?
      = (front.segment ++ front.pointsAfter).getLast? := by
  show ((_ ++ front.pointsAfter.take m.multiplicity)
    ++ front.pointsAfter.drop m.multiplicity).getLast? = _
  rw [List.append_assoc, List.take_append_drop, List.getLast?_append_of_ne_nil _ nonempty,
      List.getLast?_append_of_ne_nil _ nonempty]

variable (inc) in
/-- A run up to the end of the domain, or past a full knot there, comes to one last front. -/
theorem exists_last_front (same : ∀ a b : Front K, a.added = b.added → reach a = reach b)
    (shaped : front.Shaped d p (ms ++ [⟨t, p + 1⟩])) (full : Full p (ms ++ [⟨t, p + 1⟩])) :
    ∃ last : Front K, last.Shaped d p [⟨t, p + 1⟩]
      ∧ last.segment.getLast? = (front.segment ++ front.pointsAfter).getLast?
      ∧ raiseWithin reach p inc d (ms ++ [⟨t, p + 1⟩]) front
        = raiseWithin reach p inc d [⟨t, p + 1⟩] last
      ∧ ∀ (later : List (KnotMultiplicity K)) (points : List (Point K)),
        raiseWithin reach p inc d (ms ++ ⟨t, p⟩ :: later) (front.followedBy points)
          = raiseWithin reach p inc d (⟨t, p⟩ :: later) (last.followedBy points) := by
  induction ms generalizing front with
  | nil =>
      have after : front.pointsAfter = [] := Front.Shaped.pointsAfter_eq_nil shaped
      exact ⟨front, shaped, by rw [after, List.append_nil], rfl, fun _ _ => rfl⟩
  | cons m ms ih =>
      rw [List.cons_append] at shaped full
      have pos := full.pos
      have inside := shaped.le_after
      have nonempty : front.pointsAfter ≠ [] := List.ne_nil_of_length_pos (by omega)
      have next : (front.advance (reach front) p inc d m (ms ++ [⟨t, p + 1⟩])).Shaped d p
          (ms ++ [⟨t, p + 1⟩]) := shaped.advance full
      obtain ⟨last, shape, ends, short, long⟩ := ih next full.tail
      refine ⟨last, shape, ends.trans (Front.getLast?_advance nonempty _ _), short,
        fun later points => ?_⟩
      rw [List.cons_append, raiseWithin, ← long later points,
          same (front.followedBy points) front rfl, Front.advance_followedBy shaped pos]

/-- The last of the raised points is the last that was there. -/
theorem getLast?_raiseWithin (hp : 0 < p)
    (same : ∀ a b : Front K, a.added = b.added → reach a = reach b)
    (shaped : front.Shaped d p (ms ++ [⟨t, p + 1⟩])) (full : Full p (ms ++ [⟨t, p + 1⟩])) :
    (raiseWithin reach p inc d (ms ++ [⟨t, p + 1⟩]) front).getLast?
      = (front.segment ++ front.pointsAfter).getLast? := by
  obtain ⟨last, shape, ends, short, -⟩ := exists_last_front inc same shaped full
  rw [short, ← ends, raiseWithin, raiseWithin, List.getLast?_reverse,
      head?_advance_last hp shape]

variable (inc later) in
/-- Past a full knot stands the first front of what follows, with all that lies behind it. -/
theorem continues_joint (hp : 0 < p) (shaped : front.Shaped d p [⟨t, p + 1⟩]) {x : Point K}
    (last : front.segment.getLast? = some x) (r : Nat) (points : List (Point K)) :
    ∃ Z, (front.advance r p inc d ⟨t, p + 1⟩ []).pointsBefore = x :: Z
      ∧ Front.Continues (startFront p t (x :: points))
          ((front.followedBy points).advance r p inc d ⟨t, p⟩ later) Z := by
  have segment := (shaped.segment (by simp)).1
  have after := shaped.pointsAfter_eq_nil
  obtain ⟨polygon, edge, -⟩ := polygon_full t later segment
  obtain ⟨-, -, polygon'⟩ := polygon_full t [] segment
  have single : front.segment.drop p = [x] := by
    obtain ⟨y, hy⟩ := List.length_eq_one_iff.1
      (show (front.segment.drop p).length = 1 by rw [List.length_drop]; omega)
    have final : (front.segment.drop p).getLast? = some x := by
      rw [List.getLast?_drop, if_neg (by omega), last]
    rw [hy] at final ⊢
    exact congrArg (fun z => [z]) (Option.some.inj final)
  have head : (front.advance r p inc d ⟨t, p + 1⟩ []).pointsBefore.head? = some x :=
    (head?_advance_last hp shaped r).trans last
  obtain ⟨Z, parts⟩ := List.head?_eq_some_iff.1 head
  have mended : (front.followedBy points).mended r p inc d ⟨t, p⟩ later
      = front.mended r p inc d ⟨t, p + 1⟩ [] := by
    rw [Front.mended, Front.mended, polygon']
    exact congrArg (fun polygon => mendAfter front t r
      (raisePolygon d (shareRows p inc) polygon)) polygon
  -- behind a full knot no copies were added, so no knot there is read
  refine ⟨Z, parts, rfl, Nat.sub_self p, fun i hi => absurd hi (Nat.not_lt_zero i), ?_, ?_, ?_⟩
  · show _ = [x] ++ Z
    rw [List.singleton_append, ← parts]
    unfold Front.advance
    rw [mended, Nat.sub_self, Nat.sub_eq_zero_of_le (Nat.le_succ p)]
    rfl
  · show ((front.triangle p ⟨t, p⟩ later).filterMap List.getLast?).reverse
      ++ (front.pointsAfter ++ points).take p = x :: points.take p
    rw [edge, single, after]
    rfl
  · show (front.pointsAfter ++ points).drop p = points.drop p
    rw [after, List.nil_append]

variable (inc reach) in
/-- **At a full knot raising begins anew.**  The raised points before it are those of the part
that ends there, and the others those of the part that starts there. -/
theorem raiseWithin_joint (hp : 0 < p)
    (same : ∀ a b : Front K, a.added = b.added → reach a = reach b)
    (shaped : front.Shaped d p (ms ++ [⟨t, p + 1⟩])) (full : Full p (ms ++ [⟨t, p + 1⟩]))
    {x : Point K} (hx : (front.segment ++ front.pointsAfter).getLast? = some x)
    {points : List (Point K)} (shaped' : (startFront p t (x :: points)).Shaped d p later)
    (full' : Full p later) :
    raiseWithin reach p inc d (ms ++ ⟨t, p⟩ :: later) (front.followedBy points)
      = (raiseWithin reach p inc d (ms ++ [⟨t, p + 1⟩]) front).dropLast
        ++ raiseWithin reach p inc d later (startFront p t (x :: points)) := by
  obtain ⟨last, shape, ends, short, long⟩ := exists_last_front inc same shaped full
  obtain ⟨Z, parts, continues⟩ := continues_joint inc later hp shape (ends.trans hx)
    (reach last) points
  rw [long, raiseWithin, same (last.followedBy points) last rfl,
      continues.raiseWithin_eq same shaped' full', short, raiseWithin, raiseWithin, parts,
      List.reverse_cons, List.dropLast_concat]

end Joint

end RationalSpline.Spline
