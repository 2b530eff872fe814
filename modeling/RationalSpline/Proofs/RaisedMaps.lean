/-
  RationalSpline.Proofs.RaisedMaps
  ────────────────────────────────
  RAISING CHANGED VECTORS ON MOVED KNOTS.

  Elevation forms affine combinations of its vectors, with coefficients that are ratios of
  lengths between knots.  A change of the vectors that keeps affine combinations therefore
  passes through it from front to front, and so does a change of the parameter that keeps
  ratios.  Two changes of the vectors matter: a common factor, and the weight 1.
-/
import RationalSpline.Proofs.ClampedSpline
import RationalSpline.Proofs.Placement
import RationalSpline.Proofs.Reach

namespace RationalSpline

variable {K : Type} [Field K] {d d' : Nat} {g : Point K → Point K}

open Spline (AllSized)

/-- The multiplicity stays, and the knot moves. -/
def KnotMultiplicity.map (f : K → K) (m : KnotMultiplicity K) : KnotMultiplicity K :=
  ⟨f m.knot, m.multiplicity⟩

/-! ## §1. Changes that keep affine combinations. -/

variable [LinearOrder K]

/-- A change of the parameter keeps the ratios of lengths. -/
theorem Scales.ratio_eq {f : K → K} {σ : K} (h : Scales f σ) (x y z w : K) :
    (f x - f y) / (f z - f w) = (x - y) / (z - w) := by
  rw [h.sub_eq, h.sub_eq, mul_div_mul_left _ _ h.pos.ne']

namespace Point

/-- A change of vectors of size `d` into vectors of size `d'` that keeps affine
combinations. -/
structure Affine (d d' : Nat) (g : Point K → Point K) : Prop where
  /-- The new size. -/
  length : ∀ {x : Point K}, x.length = d → (g x).length = d'
  /-- Combinations of two are kept. -/
  blend : ∀ (a : K) {x y : Point K}, x.length = d → y.length = d →
    g (blend a x y) = Point.blend a (g x) (g y)
  /-- So are those of several, if the coefficients add up to 1. -/
  combine : ∀ {coefficients : List K} {points : List (Point K)}, coefficients.sum = 1 →
    coefficients.length ≤ points.length → AllSized d points →
    g (combine d coefficients points) = Point.combine d' coefficients (points.map g)

/-- A common factor keeps all combinations. -/
theorem affine_scale (d : Nat) (s : K) : Affine d d fun x : Point K => scale x s where
  length size := by rw [length_scale, size]
  blend a x y _ _ := by
    rw [Point.blend, scale_add, scale_scale, scale_scale, Point.blend, scale_scale, scale_scale,
        mul_comm a, mul_comm (1 - a)]
  combine {coefficients points} _ _ _ := by
    suffices fold : ∀ (pairs : List (K × Point K)) (sum : Point K),
        scale (pairs.foldl (fun sum bp => add sum (scale bp.2 bp.1)) sum) s
          = (pairs.map fun bp => (bp.1, scale bp.2 s)).foldl
              (fun sum bp => add sum (scale bp.2 bp.1)) (scale sum s) by
      have zero : scale (zero d : Point K) s = Point.zero d := by simp [scale, Point.zero]
      have whole := fold (coefficients.zip points) (Point.zero d)
      rw [zero] at whole
      rw [Point.combine, Point.combine, List.zip_map_right]
      exact whole
    intro pairs
    induction pairs with
    | nil => exact fun _ => rfl
    | cons bp rest ih =>
        intro sum
        rw [List.foldl_cons, ih, List.map_cons, List.foldl_cons, scale_add, scale_scale,
            scale_scale, mul_comm bp.1]

theorem scale_concat (x : Point K) (w s : K) : scale (x ++ [w]) s = scale x s ++ [w * s] := by
  rw [scale, List.map_append]
  rfl

theorem add_concat {x y : Point K} (same : x.length = y.length) (v w : K) :
    add (x ++ [v]) (y ++ [w]) = add x y ++ [v + w] := by
  rw [add, List.zipWith_append same]
  rfl

/-- The weight 1 is kept by affine combinations. -/
theorem affine_concat (d : Nat) : Affine d (d + 1) fun x : Point K => x ++ [1] where
  length size := by rw [List.length_append, size, List.length_singleton]
  blend a x y hx hy := by
    have same : (scale y a).length = (scale x (1 - a)).length := by
      rw [length_scale, length_scale, hx, hy]
    rw [Point.blend, Point.blend, scale_concat, scale_concat, add_concat same, one_mul, one_mul,
        add_sub_cancel]
  combine {coefficients points} one enough sized := by
    suffices fold : ∀ (pairs : List (K × Point K)) (sum : Point K) (w : K), sum.length = d →
        (∀ bp ∈ pairs, bp.2.length = d) →
        (pairs.map fun bp => (bp.1, bp.2 ++ [1])).foldl
            (fun sum bp => add sum (scale bp.2 bp.1)) (sum ++ [w])
          = pairs.foldl (fun sum bp => add sum (scale bp.2 bp.1)) sum
              ++ [w + (pairs.map Prod.fst).sum] by
      have start : (zero (d + 1) : Point K) = Point.zero d ++ [0] := List.replicate_succ'
      have total : ((coefficients.zip points).map Prod.fst).sum = 1 := by
        rw [List.map_fst_zip enough, one]
      have whole := fold (coefficients.zip points) (Point.zero d) 0 (length_zero d)
        fun bp member => sized _ (List.of_mem_zip member).2
      rw [total, zero_add, ← start] at whole
      rw [Point.combine, Point.combine, List.zip_map_right]
      exact whole.symm
    intro pairs
    induction pairs with
    | nil => intro sum w _ _; simp
    | cons bp rest ih =>
        intro sum w size sizes
        have first : bp.2.length = d := sizes bp List.mem_cons_self
        have same : sum.length = (scale bp.2 bp.1).length := by rw [length_scale, size, first]
        rw [List.map_cons, List.foldl_cons, scale_concat, one_mul, add_concat same,
            ih _ _ (by simp [size, first]) fun q member => sizes q (List.mem_cons_of_mem _ member),
            List.foldl_cons, List.map_cons, List.sum_cons, add_assoc]

end Point

namespace Spline

variable {p inc : Nat}

/-! ## §2. Rows of points. -/

section Rows

variable (affine : Point.Affine d d' g)

include affine

theorem map_blendPairs {points : List (Point K)} (sized : AllSized d points)
    (coefficients : List K) :
    blendPairs coefficients (points.map g) = (blendPairs coefficients points).map g := by
  induction coefficients generalizing points with
  | nil => cases points <;> rfl
  | cons a rest ih =>
      match points, sized with
      | [], _ => rfl
      | [_], _ => rfl
      | x :: y :: more, sized =>
          have tail : AllSized d (y :: more) := fun z hz => sized z (List.mem_cons_of_mem _ hz)
          have hx := sized x List.mem_cons_self
          have hy := tail y List.mem_cons_self
          rw [List.map_cons, List.map_cons, blendPairs, blendPairs, List.map_cons,
              affine.blend a hx hy, ← ih tail, List.map_cons]

theorem map_levels {points : List (Point K)} (sized : AllSized d points) (coefficients : List K)
    (n : Nat) :
    levels coefficients n (points.map g) = (levels coefficients n points).map (List.map g) := by
  induction n generalizing points with
  | zero => rfl
  | succ n ih =>
      rw [levels, map_blendPairs affine sized, ih (sized.blendPairs coefficients), levels,
          List.map_cons]

theorem map_sweep {points : List (Point K)} (sized : AllSized d points) {coefficients : List K}
    (short : coefficients.length < points.length) :
    sweep coefficients (points.map g) = (sweep coefficients points).map g := by
  induction coefficients generalizing points with
  | nil => simp
  | cons a rest ih =>
      cases points with
      | nil => rfl
      | cons x xs =>
          have short' : rest.length < xs.length := by simpa using short
          have sized' : AllSized d xs := fun y hy => sized y (List.mem_cons_of_mem _ hy)
          have swept : AllSized d (sweep rest xs) :=
            forall_mem_sweep (fun a x y hx hy => by simp [hx, hy]) sized' short'
          -- the entry after the last that is swept is there
          obtain ⟨y, ys, parts⟩ : ∃ y ys, sweep rest xs = y :: ys :=
            List.exists_cons_of_length_pos (by rw [length_sweep]; omega)
          rw [parts] at swept
          have first := affine.blend a (swept y List.mem_cons_self) (sized x List.mem_cons_self)
          have step : sweep (a :: rest) (x :: xs) = Point.blend a y x :: y :: ys := by
            rw [sweep, parts]
            rfl
          have step' : sweep (a :: rest) ((x :: xs).map g)
              = Point.blend a (g y) (g x) :: (y :: ys).map g := by
            rw [List.map_cons, sweep, ih sized' short', parts]
            rfl
          rw [step, step', ← first]
          rfl

theorem map_sweeps {points : List (Point K)} (sized : AllSized d points)
    {coefficients : Nat → List K} {n : Nat} (length : ∀ i < n, (coefficients i).length = i + 1)
    (short : n < points.length) :
    sweeps coefficients n (points.map g) = (sweeps coefficients n points).map g := by
  induction n with
  | zero => rfl
  | succ n ih =>
      have before : ∀ i < n, (coefficients i).length = i + 1 := fun i hi => length i (by omega)
      rw [sweeps, ih before (by omega), sweeps]
      refine map_sweep affine (sized.sweeps before (by omega)) ?_
      rw [length n (Nat.lt_succ_self n), length_sweeps]
      exact short

end Rows

/-! ## §3. Polygons. -/

/-- The shares in one control point add up to 1. -/
theorem sum_share [CharZero K] {i : Nat} (hi : i ≤ p + inc) :
    (((List.range' (i - inc) (min p i + 1 - (i - inc))).map (share p inc i)).sum : K) = 1 := by
  have positive : ((p + inc).choose i : K) ≠ 0 := Nat.cast_ne_zero.2 (Nat.choose_pos hi).ne'
  have shares : (List.range' (i - inc) (min p i + 1 - (i - inc))).map (share p inc i)
      = (List.range (min p i + 1 - (i - inc))).map fun r =>
          ((p.choose (i - inc + r) * inc.choose (i - (i - inc + r)) : Nat) : K)
            / ((p + inc).choose i : K) := by
    rw [List.range'_eq_map_range, List.map_map]
    refine List.map_congr_left fun r hr => ?_
    have inside := List.mem_range.1 hr
    show share p inc i (i - inc + r) = _
    exact share_eq (by omega) (by omega) (by omega)
  have listed : ∀ (n : Nat) (f : Nat → K),
      ((List.range n).map f).sum = ∑ r ∈ Finset.range n, f r := fun _ _ => rfl
  rw [shares, listed, ← Finset.sum_Ico_eq_sum_range
      (fun j => ((p.choose j * inc.choose (i - j) : Nat) : K) / ((p + inc).choose i : K)),
      ← Finset.sum_div, div_eq_one_iff_eq positive, ← Nat.cast_sum, Nat.add_choose_eq,
      Finset.Nat.sum_antidiagonal_eq_sum_range_succ fun j k => p.choose j * inc.choose k]
  -- what the convolution of the binomials has besides these terms is 0
  refine congrArg Nat.cast (Finset.sum_subset (fun j hj => ?_) fun j hj out => ?_)
  · have := Finset.mem_Ico.1 hj
    exact Finset.mem_range.2 (by omega)
  · have range := Finset.mem_range.1 hj
    have out' : ¬(i - inc ≤ j ∧ j < min p i + 1) := fun e => out (Finset.mem_Ico.2 e)
    by_cases low : j < i - inc
    · rw [Nat.choose_eq_zero_of_lt (show inc < i - j by omega), Nat.mul_zero]
    · rw [Nat.choose_eq_zero_of_lt (show p < j by omega), Nat.zero_mul]

theorem map_raisePolygon [CharZero K] (affine : Point.Affine d d' g) {polygon : List (Point K)}
    (sized : AllSized d polygon) (length : polygon.length = p + 1) :
    raisePolygon d' (shareRows p inc) (polygon.map g)
      = (raisePolygon d (shareRows p inc) polygon).map g := by
  rw [raisePolygon, raisePolygon, List.map_map]
  refine List.map_congr_left fun row hrow => ?_
  obtain ⟨i, hi, rfl⟩ := List.mem_map.1 hrow
  have inside := List.mem_range.1 hi
  show Point.combine d' _ ((polygon.map g).drop (i - inc))
    = g (Point.combine d _ (polygon.drop (i - inc)))
  rw [affine.combine (sum_share (by omega)) ?_ (sized.drop _), List.map_drop]
  rw [List.length_map, List.length_range', List.length_drop, length]
  omega

/-! ## §4. Fronts. -/

omit [Field K] [LinearOrder K] in
theorem flatMap_occurrences_map (f : K → K) (ms : List (KnotMultiplicity K)) :
    (ms.map (KnotMultiplicity.map f)).flatMap KnotMultiplicity.occurrences
      = (ms.flatMap KnotMultiplicity.occurrences).map f := by
  rw [List.flatMap_map, List.map_flatMap]
  refine congrArg (List.flatMap · ms) (funext fun m => ?_)
  exact (List.map_replicate (f := f)).symm

/-- The front on moved knots, with changed vectors. -/
def Front.map (f : K → K) (g : Point K → Point K) (front : Front K) : Front K where
  knot := f front.knot
  added := front.added
  knotsBefore := front.knotsBefore.map f
  pointsBefore := front.pointsBefore.map g
  segment := front.segment.map g
  pointsAfter := front.pointsAfter.map g

omit [Field K] [LinearOrder K] in
theorem startFront_map (f : K → K) (g : Point K → Point K) (p : Nat) (a : K)
    (P : List (Point K)) : (startFront p a P).map f g = startFront p (f a) (P.map g) := by
  simp only [startFront, Front.map, List.map_take, List.map_drop, List.map_cons, List.map_nil]

section Fronts

variable {f : K → K} {σ : K} (scales : Scales f σ) (affine : Point.Affine d d' g) {front : Front K}
  {m : KnotMultiplicity K} {later : List (KnotMultiplicity K)}

theorem getD_map_knots {knots : List K} {i : Nat} (inside : i < knots.length) :
    (knots.map f).getD i 0 = f (knots.getD i 0) := by
  rw [List.getD_eq_getElem _ _ (by rwa [List.length_map]), List.getElem_map,
      List.getD_eq_getElem _ _ inside]

include scales in
theorem ratioBefore_map (next : K) {i : Nat} (inside : i < front.knotsBefore.length) :
    ratioBefore (front.map f g) (f next) i = ratioBefore front next i := by
  show (f next - (front.knotsBefore.map f).getD i 0)
    / (f front.knot - (front.knotsBefore.map f).getD i 0) = _
  rw [getD_map_knots inside, scales.ratio_eq]
  rfl

include scales in
theorem ratioAfter_map (next : K) (reach : Nat) {i : Nat} (inside : i < front.knotsBefore.length) :
    ratioAfter (front.map f g) (f next) reach i = ratioAfter front next reach i := by
  show (f next - (front.knotsBefore.map f).getD (if i + 1 < reach then 0 else i) 0)
    / (f next - f front.knot) = _
  have inside' : (if i + 1 < reach then 0 else i) < front.knotsBefore.length := by
    split <;> omega
  rw [getD_map_knots inside', scales.ratio_eq]
  rfl

include scales affine in
theorem mendBefore_map (shaped : front.Shaped d p later) (next : K) :
    mendBefore (front.map f g) (f next) = (mendBefore front next).map g := by
  have count := shaped.count
  have enough := shaped.enough
  rw [mendBefore, mendBefore, ← map_sweeps affine shaped.sized (fun i _ => by simp) (by omega)]
  refine sweeps_congr (fun n hn => List.map_congr_left fun i hi => ?_) _
  have small := List.mem_range.1 hi
  have hn' : n < front.added / 2 := hn
  exact ratioBefore_map scales next (show (front.added + 1) / 2 + i < _ by omega)

include scales affine in
theorem mendAfter_map (shaped : front.Shaped d p later) (next : K) (reach : Nat)
    {raised : List (Point K)} (sized : AllSized d raised)
    (length : front.added < raised.length) (many : 1 < raised.length) :
    mendAfter (front.map f g) (f next) reach (raised.map g)
      = (mendAfter front next reach raised).map g := by
  have enough := shaped.enough
  rw [mendAfter, mendAfter, ← map_sweeps affine (sized.drop _) (fun i _ => by simp)
    (by rw [List.length_drop]; omega), List.map_drop]
  refine sweeps_congr (fun n hn => congrArg List.reverse (List.map_congr_left fun i hi => ?_)) _
  have small := List.mem_range.1 hi
  have hn' : n < (front.added + 1) / 2 - 1 := hn
  exact ratioAfter_map scales next reach (by omega)

include scales affine in
theorem triangle_map (sized : AllSized d front.segment) :
    (front.map f g).triangle p (m.map f) (later.map (KnotMultiplicity.map f))
      = (front.triangle p m later).map (List.map g) := by
  have coefficients : (((later.map (KnotMultiplicity.map f)).flatMap
        KnotMultiplicity.occurrences).take (p - m.multiplicity)).map
          (fun k => (f m.knot - f front.knot) / (k - f front.knot))
      = ((later.flatMap KnotMultiplicity.occurrences).take (p - m.multiplicity)).map
          fun k => (m.knot - front.knot) / (k - front.knot) := by
    rw [flatMap_occurrences_map, ← List.map_take, List.map_map]
    exact List.map_congr_left fun k _ => scales.ratio_eq _ _ _ _
  show levels _ (p - m.multiplicity) ((front.segment.map g).drop m.multiplicity) = _
  rw [← List.map_drop, map_levels affine (sized.drop _)]
  exact congrArg (fun c => (levels c _ _).map (List.map g)) coefficients

omit [Field K] [LinearOrder K] in
theorem filterMap_map_rows {pick : List (Point K) → Option (Point K)}
    (natural : ∀ row, pick (row.map g) = (pick row).map g) (rows : List (List (Point K))) :
    (rows.map (List.map g)).filterMap pick = (rows.filterMap pick).map g := by
  rw [List.filterMap_map, List.map_filterMap]
  exact congrArg (List.filterMap · rows) (funext natural)

include scales affine in
theorem polygon_map (sized : AllSized d front.segment) :
    (front.map f g).polygon p (m.map f) (later.map (KnotMultiplicity.map f))
      = (front.polygon p m later).map g := by
  rw [Front.polygon, triangle_map scales affine sized,
      filterMap_map_rows (fun row => List.head?_map), Front.polygon, List.map_append, List.map_take]
  rfl

/-- The polygon of a segment has a point more than its degree. -/
theorem length_polygon (shaped : front.Shaped d p (m :: later)) (full : Full p (m :: later)) :
    (front.polygon p m later).length = p + 1 := by
  have segment := (shaped.segment (by simp)).1
  rw [Front.polygon, List.length_append, List.length_take, segment]
  by_cases le : m.multiplicity ≤ p
  · have edge : ((front.triangle p m later).filterMap List.head?).length
        = p - m.multiplicity + 1 := by
      rw [List.length_filterMap_eq_countP, List.countP_eq_length.2, Front.triangle, length_levels]
      intro row hrow
      rw [List.isSome_head?]
      exact shaped.triangle_ne_nil le full row hrow
    omega
  · have beyond : front.segment.drop m.multiplicity = [] := List.drop_eq_nil_of_le (by omega)
    have none : p - m.multiplicity = 0 := by omega
    rw [Front.triangle, none, beyond]
    simp only [levels, List.filterMap_cons, List.head?_nil, List.filterMap_nil, List.length_nil]
    omega

/-- **The next front of a changed front is the changed next front.** -/
theorem advance_map [CharZero K] (scales : Scales f σ) (affine : Point.Affine d d' g) (hp : 0 < p)
    (shaped : front.Shaped d p (m :: later)) (full : Full p (m :: later)) (reach : Nat) :
    (front.map f g).advance reach p inc d' (m.map f) (later.map (KnotMultiplicity.map f))
      = (front.advance reach p inc d m later).map f g := by
  have segment := (shaped.segment (by simp)).2
  have added := shaped.added_le
  have triangle : (front.map f g).triangle p (m.map f) (later.map (KnotMultiplicity.map f)) = _ :=
    triangle_map scales affine segment
  have mended : (front.map f g).mended reach p inc d' (m.map f) (later.map (KnotMultiplicity.map f))
      = (front.mended reach p inc d m later).map g := by
    rw [Front.mended, polygon_map scales affine segment,
        map_raisePolygon affine shaped.allSized_polygon (length_polygon shaped full)]
    refine mendAfter_map scales affine shaped m.knot reach
      (shaped.allSized_polygon.raisePolygon _) ?_ ?_ <;>
    · rw [length_raisePolygon, length_shareRows]
      omega
  have before : mendBefore (front.map f g) (m.map f).knot = (mendBefore front m.knot).map g :=
    mendBefore_map scales affine shaped m.knot
  have knots : List.replicate (p + inc - front.added) (f front.knot) ++ front.knotsBefore.map f
      = (List.replicate (p + inc - front.added) front.knot ++ front.knotsBefore).map f := by
    rw [List.map_append, List.map_replicate]
  unfold Front.advance
  rw [mended, before, triangle, filterMap_map_rows (fun row => List.getLast?_map)]
  simp only [Front.map, knots, List.map_append, List.map_reverse, List.map_take, List.map_drop]
  rfl

/-- **Changed vectors on moved knots are raised to the changed raised vectors.** -/
theorem raiseWithin_map [CharZero K] (scales : Scales f σ) (affine : Point.Affine d d' g)
    (hp : 0 < p) (inc : Nat) (reach : Front K → Nat)
    (same : ∀ a b : Front K, a.added = b.added → reach a = reach b)
    (shaped : front.Shaped d p later) (full : Full p later) :
    raiseWithin reach p inc d' (later.map (KnotMultiplicity.map f)) (front.map f g)
      = (raiseWithin reach p inc d later front).map g := by
  -- along the breaks, with the shape of the front as the invariant
  induction later generalizing front with
  | nil => exact (List.map_reverse ..).symm
  | cons m later ih =>
      rw [List.map_cons, raiseWithin, same (front.map f g) front rfl,
          advance_map scales affine hp shaped full, ih (shaped.advance full) full.tail, raiseWithin]

end Fronts

end Spline

end RationalSpline
