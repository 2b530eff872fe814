/-
  RationalSpline.Proofs.LocalRemoval
  ──────────────────────────────────
  WHAT A REMOVAL LEAVES AS IT IS.

  The supports that the sweeps of a removal divide by reach across the removed knot, so
  none of them is empty and the knot divides none of them at an end: no divisor is 0
  (`removeEachDividing`, which stops at one, does not stop).  One removal solves for
  control points between those of two untouched sides.  Where a parameter sees the knots
  and control points of one side only, the curve keeps its value; a run of knots at the
  parameter narrows what it sees.
-/
import RationalSpline.Proofs.Direction
import RationalSpline.Proofs.Splicing
import RationalSpline.Scalar.Floating

namespace RationalSpline

/-! ## §1. Removal that stops at a divisor 0. -/

section Dividing

variable {α : Type} [Scalar α]

/-- The point divided by a number other than 0. -/
def Point.divide? (x : Point α) (a : α) : Option (Point α) :=
  if a == 0 then none else some (Point.divide x a)

namespace Spline

/-- The position of `u` in the support that starts at the knot `i`, if that is not empty. -/
def ratio? (U : KnotVector α) (p : Nat) (u : α) (i : Nat) : Option α :=
  if U.knot (i + (p + 1)) - U.knot i == 0 then none else some (ratio U p u i)

/-- `sweepUp` as far as no divisor is 0. -/
def sweepUp? (U : KnotVector α) (p : Nat) (u : α) (i : Nat) (before : Point α) :
    List (Point α) → Option (List (Point α))
  | [] => some []
  | q :: qs => do
      let a ← ratio? U p u i
      let solved ← Point.divide? (Point.sub q (Point.scale before (1 - a))) a
      let rest ← sweepUp? U p u (i + 1) solved qs
      return solved :: rest

/-- `sweepDown` as far as no divisor is 0. -/
def sweepDown? (U : KnotVector α) (p : Nat) (u : α) (j : Nat) (after : Point α) :
    List (Point α) → Option (List (Point α))
  | [] => some []
  | q :: qs => do
      let a ← ratio? U p u j
      let solved ← Point.divide? (Point.sub q (Point.scale after a)) (1 - a)
      let rest ← sweepDown? U p u (j - 1) solved qs
      return solved :: rest

/-- The answers of the two sweeps for the control points `first … last`, put together. -/
def meet (first last : Nat) (up down : List (Point α)) : List (Point α) :=
  if (last - first) % 2 = 0 then up ++ down.reverse
  else up.dropLast
    ++ Point.scale (Point.add (up.getLastD []) (down.getLastD [])) Scalar.half
      :: down.dropLast.reverse

/-- `unblend` as far as no divisor is 0. -/
def unblend? (S : Spline α) (u : α) (first last : Nat) : Option (List (Point α)) := do
  let steps := (last - first + 1) / 2
  let up ← sweepUp? S.knots S.degree u first (S.points.getD (first - 1) [])
    ((S.points.drop first).take steps)
  let down ← sweepDown? S.knots S.degree u last (S.points.getD (last + 1) [])
    ((S.points.drop (last + 1 - steps)).take steps).reverse
  return meet first last up down

/-- The spline without the knot at `r`, where that is defined and no divisor is 0. -/
def removeDividing? (S : Spline α) (r : Nat) : Option (Spline α) :=
  if S.removable r then
    (S.unblend? (S.knots.knot r) (r - S.degree) (r - S.knots.count (S.knots.knot r))).map
      fun middle =>
        { degree := S.degree
          knots := ⟨S.knots.values.eraseIdx r⟩
          points := S.points.take (r - S.degree) ++ middle
            ++ S.points.drop (r - S.knots.count (S.knots.knot r) + 1) }
  else none

/-- The removal of the knots at the given compact indices, which stops at a divisor 0. -/
def removeEachDividing? (S : Spline α) : List Nat → Option (Spline α)
  | [] => some S
  | index :: rest =>
      let value := S.knots.knot (index + 1)
      let r := (Sequence.lastIndex? (· == value) S.knots.values).getD (index + 1)
      (S.removeDividing? r).bind fun S => removeEachDividing? S rest

end Spline

end Dividing

/-! ## §2. No divisor is 0. -/

variable {K : Type} [Field K] [LinearOrder K]

namespace Spline

section Divisors

variable [IsStrictOrderedRing K] {U : KnotVector K} {p : Nat} {u : K}

/-- Inside a support that reaches across it a knot divides it properly. -/
theorem ratio?_eq {i : Nat} (low : U.knot i < u) (high : u < U.knot (i + (p + 1))) :
    ratio? U p u i = some (ratio U p u i) ∧ 0 < ratio U p u i ∧ ratio U p u i < 1 := by
  have length : 0 < U.knot (i + (p + 1)) - U.knot i := sub_pos.2 (low.trans high)
  refine ⟨by simp [ratio?, length.ne'], div_pos (sub_pos.2 low) length, ?_⟩
  rw [ratio, div_lt_one length]
  exact sub_lt_sub_right high _

theorem sweepUp?_eq (points : List (Point K)) (i : Nat) (before : Point K)
    (low : ∀ k < points.length, U.knot (i + k) < u)
    (high : ∀ k < points.length, u < U.knot (i + k + (p + 1))) :
    sweepUp? U p u i before points = some (sweepUp U p u i before points) := by
  induction points generalizing i before with
  | nil => rfl
  | cons q qs ih =>
      obtain ⟨ratio, pos, -⟩ := ratio?_eq (low 0 (Nat.succ_pos _)) (high 0 (Nat.succ_pos _))
      rw [Nat.add_zero] at ratio pos
      have rest := fun before' => ih (i + 1) before'
        (fun k hk => by
          rw [show i + 1 + k = i + (k + 1) by omega]
          exact low (k + 1) (Nat.succ_lt_succ hk))
        (fun k hk => by
          rw [show i + 1 + k = i + (k + 1) by omega]
          exact high (k + 1) (Nat.succ_lt_succ hk))
      simp [sweepUp?, sweepUp, ratio, Point.divide?, pos.ne', rest]

theorem sweepDown?_eq (points : List (Point K)) (j : Nat) (after : Point K)
    (low : ∀ k < points.length, U.knot (j - k) < u)
    (high : ∀ k < points.length, u < U.knot (j - k + (p + 1))) :
    sweepDown? U p u j after points = some (sweepDown U p u j after points) := by
  induction points generalizing j after with
  | nil => rfl
  | cons q qs ih =>
      obtain ⟨ratio, -, less⟩ := ratio?_eq (low 0 (Nat.succ_pos _)) (high 0 (Nat.succ_pos _))
      rw [Nat.sub_zero] at ratio less
      have rest := fun after' => ih (j - 1) after'
        (fun k hk => by
          rw [show j - 1 - k = j - (k + 1) by omega]
          exact low (k + 1) (Nat.succ_lt_succ hk))
        (fun k hk => by
          rw [show j - 1 - k = j - (k + 1) by omega]
          exact high (k + 1) (Nat.succ_lt_succ hk))
      simp [sweepDown?, sweepDown, ratio, Point.divide?, (sub_pos.2 less).ne', rest]

end Divisors

/-! ## §3. One removal. -/

namespace Spans

variable {S : Spline K} {u : K}

variable (h : S.Spans u) (start : S.knots.knot S.degree < u) (pos : 0 < S.knots.count u)
  (few : S.knots.count u ≤ S.degree)
include h start pos few

/-- The bounds within which one removal works. -/
theorem place_bounds : S.degree < S.place u ∧ S.place u < S.points.length
    ∧ S.place u - S.knots.count u + 1 < S.points.length ∧ S.knots.knot (S.place u) = u := by
  obtain ⟨low, copies, -⟩ := h.removable start pos few
  have place := h.place_eq
  have high := h.countUpTo_le_length
  exact ⟨low, by omega, by omega, h.knot_eq le_rfl (by omega)⟩

/-- **No divisor of a removal is 0.** -/
theorem removeDividing?_eq [IsStrictOrderedRing K] :
    S.removeDividing? (S.place u) = some (S.remove (S.place u)) := by
  obtain ⟨-, copies, removable⟩ := h.removable start pos few
  obtain ⟨low, high, -, value⟩ := h.place_bounds start pos few
  have size := h.size_eq
  -- all supports from the first to the last reach across the knot
  have below : ∀ i ≤ S.place u - S.knots.count u, S.knots.knot i < u := fun i hi =>
    h.knot_lt (by omega)
  have above : ∀ i, S.place u - S.degree ≤ i → i ≤ S.place u - S.knots.count u →
      u < S.knots.knot (i + (S.degree + 1)) := fun i hi hi' => h.lt_knot (by omega) (by omega)
  have up := sweepUp?_eq (U := S.knots) (p := S.degree) (u := u)
    ((S.points.drop (S.place u - S.degree)).take
      ((S.place u - S.knots.count u - (S.place u - S.degree) + 1) / 2))
    (S.place u - S.degree) (S.points.getD (S.place u - S.degree - 1) [])
    (fun k hk => below _ (by rw [List.length_take] at hk; omega))
    (fun k hk => above _ (by omega) (by rw [List.length_take] at hk; omega))
  have down := sweepDown?_eq (U := S.knots) (p := S.degree) (u := u)
    ((S.points.drop (S.place u - S.knots.count u + 1
        - (S.place u - S.knots.count u - (S.place u - S.degree) + 1) / 2)).take
      ((S.place u - S.knots.count u - (S.place u - S.degree) + 1) / 2)).reverse
    (S.place u - S.knots.count u) (S.points.getD (S.place u - S.knots.count u + 1) [])
    (fun k hk => below _ (by omega))
    (fun k hk => above _ (by rw [List.length_reverse, List.length_take] at hk; omega) (by omega))
  rw [removeDividing?, if_pos removable, unblend?, value]
  simp only [up, down, Option.bind_eq_bind, Option.bind_some, Option.pure_def, Option.map_some]
  rw [remove_eq value rfl rfl]
  rfl

/-- The control points before the affected ones stay. -/
theorem getD_remove_of_lt {j : Nat} (hj : j < S.place u - S.degree) :
    (S.remove (S.place u)).points.getD j [] = S.points.getD j [] := by
  obtain ⟨low, high, -, value⟩ := h.place_bounds start pos few
  rw [remove_eq value rfl rfl]
  show (_ ++ _ ++ _ : List (Point K)).getD j [] = _
  rw [List.append_assoc, List.getD_append _ _ _ _ (by rw [List.length_take]; omega),
      List.getD_eq_getElem?_getD, List.getElem?_take_of_lt hj, List.getD_eq_getElem?_getD]

/-- Those behind them move up by one place. -/
theorem getD_remove_of_le {j : Nat} (hj : S.place u - S.knots.count u ≤ j) :
    (S.remove (S.place u)).points.getD j [] = S.points.getD (j + 1) [] := by
  obtain ⟨low, high, last, value⟩ := h.place_bounds start pos few
  have middle : (S.unblend u (S.place u - S.degree) (S.place u - S.knots.count u)).length = _ :=
    length_unblend u (by omega) (by omega)
  have front : (S.points.take (S.place u - S.degree)
      ++ S.unblend u (S.place u - S.degree) (S.place u - S.knots.count u)).length
        = S.place u - S.knots.count u := by
    rw [List.length_append, List.length_take, middle]
    omega
  rw [remove_eq value rfl rfl]
  show (_ ++ _ : List (Point K)).getD j [] = _
  rw [List.getD_append_right _ _ _ _ (by omega), front, List.getD_eq_getElem?_getD,
      List.getElem?_drop, List.getD_eq_getElem?_getD]
  exact congrArg (fun i => (S.points[i]?).getD []) (by omega)

end Spans

/-! ## §4. Several removals. -/

/-- The `n` knots behind the index `low` lie inside the domain, none of them more often than the
degree says. -/
structure Interior (S : Spline K) (low n : Nat) : Prop where
  /-- The knots do not decrease. -/
  ordered : S.knots.Ordered
  /-- The knot count fits. -/
  size_eq : S.knots.size = S.points.length + S.degree + 1
  /-- There are so many knots. -/
  lt_size : low + n < S.knots.size
  /-- The knots lie inside the domain. -/
  inside : ∀ i, low < i → i ≤ low + n →
    S.knots.knot S.degree < S.knots.knot i ∧ S.knots.knot i < S.knots.knot S.points.length
  /-- None of them is repeated too often. -/
  few : ∀ i, low < i → i ≤ low + n → S.knots.count (S.knots.knot i) ≤ S.degree

namespace Interior

variable {S : Spline K} {low n : Nat}

/-- The last of the knots can be removed. -/
theorem spans (h : S.Interior low (n + 1)) : S.Spans (S.knots.knot (low + n + 1))
    ∧ S.knots.knot S.degree < S.knots.knot (low + n + 1)
    ∧ 0 < S.knots.count (S.knots.knot (low + n + 1))
    ∧ S.knots.count (S.knots.knot (low + n + 1)) ≤ S.degree := by
  obtain ⟨start, finish⟩ := h.inside (low + n + 1) (by omega) le_rfl
  refine ⟨⟨h.ordered, h.size_eq, start.le, finish⟩, start, ?_, h.few _ (by omega) le_rfl⟩
  have inside : low + n + 1 < S.knots.values.length := h.lt_size
  rw [KnotVector.count_eq_list_count, List.count_pos_iff, KnotVector.knot_eq_getElem _ inside]
  exact List.getElem_mem _

/-- It stands in its run at the chosen index or before the last one. -/
theorem le_place (h : S.Interior low (n + 1)) :
    low + n + 1 ≤ S.place (S.knots.knot (low + n + 1)) := by
  rw [h.spans.1.place_eq]
  have := (h.ordered.knot_le_iff (u := S.knots.knot (low + n + 1)) h.lt_size).1 le_rfl
  omega

/-- **One removal leaves the others possible.** -/
theorem remove (h : S.Interior low (n + 1)) :
    (S.remove (S.place (S.knots.knot (low + n + 1)))).Interior low n := by
  obtain ⟨spans, start, pos, few⟩ := h.spans
  obtain ⟨-, -, removable⟩ := spans.removable start pos few
  obtain ⟨degree, high, -, -⟩ := spans.place_bounds start pos few
  have place := h.le_place
  have size := size_knots_remove removable
  have length := length_points_remove removable
  have size' := h.size_eq
  have before : ∀ i ≤ low + n, (S.remove (S.place (S.knots.knot (low + n + 1)))).knots.knot i
      = S.knots.knot i := fun i hi => knot_remove_of_lt (by omega)
  refine ⟨h.ordered.sublist (List.eraseIdx_sublist _ _), ?_, ?_, fun i hi hi' => ?_,
    fun i hi hi' => ?_⟩
  · show _ = _ + S.degree + 1
    omega
  · have := h.lt_size
    omega
  · rw [before i hi', length, knot_remove_of_le (i := S.points.length - 1) (by omega),
        Nat.sub_add_cancel (by omega)]
    show (S.remove _).knots.knot S.degree < _ ∧ _
    rw [knot_remove_of_lt degree]
    exact h.inside i hi (by omega)
  · rw [before i hi', KnotVector.count_eq_list_count]
    refine le_trans ((List.eraseIdx_sublist _ _).count_le _) ?_
    rw [← KnotVector.count_eq_list_count]
    exact h.few i hi (by omega)

/-- **The removal of several knots does not stop.** -/
theorem removeEach [IsStrictOrderedRing K] (h : S.Interior low n) :
    ∃ T, Curve.removeEach S (downFrom low n) = some T
      ∧ S.removeEachDividing? (downFrom low n) = some T := by
  induction n generalizing S with
  | zero => exact ⟨S, rfl, rfl⟩
  | succ n ih =>
      obtain ⟨spans, start, pos, few⟩ := h.spans
      obtain ⟨-, -, removable⟩ := spans.removable start pos few
      obtain ⟨T, removed, divided⟩ := ih h.remove
      have found : Sequence.lastIndex? (· == S.knots.knot (low + n + 1)) S.knots.values
          = some (S.place (S.knots.knot (low + n + 1))) := by
        rw [spans.place_eq]
        exact spans.ordered.lastIndex?_eq pos
      refine ⟨T, ?_, ?_⟩
      · rw [downFrom_succ, Curve.removeEach, found, Option.getD_some, remove?, if_pos removable]
        exact removed
      · rw [downFrom_succ, removeEachDividing?, found, Option.getD_some,
            spans.removeDividing?_eq start pos few]
        exact divided

end Interior

end Spline

namespace Curve

variable {c e : Curve K}

/-! ## §5. Values on the two sides. -/

/-- The curve `e` is `c` without its padded knot `r`, the last one of a run of `s`.  The knots and
control points before the affected ones are those of `c`, the ones behind them too, an index
lower. -/
structure LosesKnot (c e : Curve K) (r s : Nat) : Prop where
  /-- The vectors keep their size. -/
  vectorSize : e.vectorSize = c.vectorSize
  /-- The degree stays. -/
  degree : e.degree = c.degree
  /-- The domain stays. -/
  domain : e.domain = c.domain
  /-- A control point goes with the knot. -/
  pointCount : e.pointCount + 1 = c.pointCount
  /-- The run is not empty. -/
  pos : 0 < s
  /-- It is no longer than the degree. -/
  le_degree : s ≤ c.degree
  /-- It lies behind the start of the domain. -/
  degree_lt : c.degree < r
  /-- It lies before the last control point. -/
  lt_pointCount : r < c.pointCount
  /-- It lies before the end of the domain. -/
  lt_finish : c.spline.knots.knot r < c.domain.2
  /-- The knot before the run is a lower one. -/
  lt_run : c.spline.knots.knot (r - s) < c.spline.knots.knot r
  /-- The run begins behind it. -/
  run : ∀ i, r - s < i → i ≤ r → c.spline.knots.knot i = c.spline.knots.knot r
  /-- The knots before the removed one. -/
  knot_before : ∀ i, 0 < i → i < r → e.spline.knots.knot i = c.spline.knots.knot i
  /-- The knots behind it. -/
  knot_behind : ∀ i, r - s < i → i + 1 < c.pointCount + c.degree →
    e.spline.knots.knot i = c.spline.knots.knot (i + 1)
  /-- The control points before the affected ones. -/
  point_before : ∀ j < r - c.degree,
    e.points.vectors.getD j [] = c.points.vectors.getD j []
  /-- The control points behind them. -/
  point_behind : ∀ j, r - s ≤ j →
    e.points.vectors.getD j [] = c.points.vectors.getD (j + 1) []

section Values

variable [IsStrictOrderedRing K] {r s : Nat} {t : K} (h : LosesKnot c e r s) (hc : c.Sound)
  (he : e.Sound)
include h hc he

omit he in
/-- A parameter up to the knot `r - p` keeps its span, which does not lie behind the knot
`r - s`. -/
theorem LosesKnot.exists_onSpan_of_le (h₀ : c.domain.1 ≤ t)
    (le : t ≤ c.spline.knots.knot (r - c.degree)) :
    ∃ i, c.degree ≤ i ∧ i < c.pointCount ∧ i ≤ r - s
      ∧ c.spline.knots.onSpan c.domain.2 t i = true
      ∧ e.spline.knots.onSpan e.domain.2 t i = true := by
  obtain ⟨-, degree, domain, count, pos, few, start, last, finish, below, run, knots, behind,
    -, -⟩ := id h
  have ordered := hc.ordered_padded
  have padded := size_padded_knots hc
  have length : c.points.vectors.length = c.pointCount := rfl
  have before : t < c.spline.knots.knot r :=
    lt_of_le_of_lt (le.trans (ordered.knot_le (by omega) (by omega))) below
  have inner : t < c.domain.2 := before.trans finish
  obtain ⟨i, hi, hi', on⟩ := hc.exists_onSpan (lt_of_le_of_lt h₀ inner) h₀ inner.le
  obtain ⟨from_, -⟩ := KnotVector.within_of_onSpan on
  have upTo : t < c.spline.knots.knot (i + 1) := by
    rcases KnotVector.onSpan_iff.1 on with ⟨-, less, -⟩ | ⟨-, -, same⟩
    · exact less
    · exact absurd same inner.ne
  -- behind the run, and within it, spans begin after the parameter
  have index : i ≤ r - s := by
    by_contra more
    refine absurd from_ (not_le.2 ?_)
    rcases Nat.lt_or_ge r i with out | within
    · exact lt_of_lt_of_le before (ordered.knot_le out.le (by omega))
    · rwa [run i (by omega) within]
  have positive := hc.degree_pos
  refine ⟨i, hi, hi', index, on, KnotVector.onSpan_iff.2 (.inl ⟨?_, ?_, domain ▸ inner⟩)⟩
  · rw [knots i (by omega) (by omega)]
    exact from_
  · rcases Nat.lt_or_ge (i + 1) r with inside | reached
    · rw [knots (i + 1) (by omega) inside]
      exact upTo
    · rw [behind (i + 1) (by omega) (by omega)]
      exact lt_of_lt_of_le upTo (ordered.knot_le (by omega) (by omega))

/-- **Up to the knot `r - p` values stay.** -/
theorem LosesKnot.definedVector_of_le (h₀ : c.domain.1 ≤ t)
    (le : t ≤ c.spline.knots.knot (r - c.degree)) : e.definedVector t = c.definedVector t := by
  obtain ⟨i, hi, hi', index, on, on'⟩ := h.exists_onSpan_of_le hc h₀ le
  obtain ⟨-, degree, domain, count, pos, few, start, last, finish, below, run, knots, -, points,
    -⟩ := id h
  have ordered := hc.ordered_padded
  have padded := size_padded_knots hc
  have length : c.points.vectors.length = c.pointCount := rfl
  have positive := hc.degree_pos
  obtain ⟨from_, -⟩ := KnotVector.within_of_onSpan on
  obtain ⟨t', low, high, low', high'⟩ := exists_between_of_onSpan on (domain ▸ on')
  refine hc.definedVector_eq_of_run he h.vectorSize degree (l := min i (r - c.degree - 1))
    (n := i - min i (r - c.degree - 1)) (m := 0) hi hi' (by omega) (by omega) (by omega) (by omega)
    (fun x hx hx' => ?_) (fun x hx hx' => ?_) (fun j hj _ => ?_) on on' low high low' high'
  · -- a span from the knot `r - p` on begins with a run of knots that equal `t`
    exact le_antisymm ((ordered.knot_le (by omega) (by omega)).trans from_)
      (le.trans (ordered.knot_le (by omega) (by omega)))
  · exact knots x (by omega) (by omega)
  · exact points j (by omega)

/-- A parameter from the knot `r - s + p + 1` on lies in a span one place lower, which does not
end before the run. -/
theorem LosesKnot.exists_onSpan_of_ge (h₁ : t ≤ c.domain.2)
    (ge : c.spline.knots.knot (r - s + c.degree + 1) ≤ t) :
    ∃ k, e.degree ≤ k ∧ k < e.pointCount ∧ r - s ≤ k
      ∧ e.spline.knots.onSpan e.domain.2 t k = true
      ∧ c.spline.knots.onSpan c.domain.2 t (k + 1) = true := by
  obtain ⟨-, degree, domain, count, pos, few, start, last, finish, below, run, knots, behind,
    -, -⟩ := id h
  have ordered := hc.ordered_padded
  have ordered' := he.ordered_padded
  have padded := size_padded_knots hc
  have padded' := size_padded_knots he
  have length : c.points.vectors.length = c.pointCount := rfl
  have length' : e.points.vectors.length = e.pointCount := rfl
  have positive := hc.degree_pos
  have reached : e.spline.knots.knot (r - s + c.degree) ≤ t := by
    rwa [behind _ (by omega) (by omega)]
  have beyond : c.spline.knots.knot r ≤ t := le_trans (ordered.knot_le (by omega) (by omega)) ge
  have first : e.domain.1 ≤ t := by
    rw [domain, hc.domain_start]
    exact (ordered.knot_le (by omega) (by omega)).trans beyond
  have wide : e.domain.1 < e.domain.2 := by
    rw [domain, hc.domain_start]
    exact lt_of_le_of_lt (ordered.knot_le (by omega) (by omega)) finish
  obtain ⟨k, hk, hk', on⟩ := he.exists_onSpan wide first (domain ▸ h₁)
  -- a span before the run ends before the run does, and so before the parameter
  have index : r - s ≤ k := by
    by_contra less
    refine absurd (KnotVector.within_of_onSpan on).2 (not_le.2 ?_)
    refine lt_of_le_of_lt (ordered'.knot_le (show k + 1 ≤ r - s by omega) (by omega)) ?_
    rw [knots _ (by omega) (by omega)]
    exact lt_of_lt_of_le below beyond
  have next : c.spline.knots.knot (k + 1 + 1) = e.spline.knots.knot (k + 1) :=
    (behind (k + 1) (by omega) (by omega)).symm
  refine ⟨k, hk, hk', index, on, ?_⟩
  -- a span that begins before the run ends too early for `t`, but for the last one, which is closed
  rcases KnotVector.onSpan_iff.1 on with ⟨low, high, inner⟩ | ⟨low, same, end_⟩
  · have far : r - s < k := by
      by_contra near
      exact absurd (ordered'.knot_le (show k + 1 ≤ r - s + c.degree by omega) (by omega))
        (not_le.2 (lt_of_le_of_lt reached high))
    refine KnotVector.onSpan_iff.2 (.inl ⟨?_, next ▸ high, domain ▸ inner⟩)
    rw [← behind k far (by omega)]
    exact low
  · refine KnotVector.onSpan_iff.2 (.inr ⟨?_, next.trans same, domain ▸ end_⟩)
    rcases Nat.lt_or_ge (r - s) k with far | near
    · rw [← behind k far (by omega)]
      exact low
    · rw [run (k + 1) (by omega) (by omega), end_, domain]
      exact finish

/-- **From the knot `r - s + p + 1` on values stay.** -/
theorem LosesKnot.definedVector_of_ge (h₁ : t ≤ c.domain.2)
    (ge : c.spline.knots.knot (r - s + c.degree + 1) ≤ t) :
    e.definedVector t = c.definedVector t := by
  obtain ⟨k, hk, hk', index, on, on'⟩ := h.exists_onSpan_of_ge hc he h₁ ge
  obtain ⟨-, degree, domain, count, pos, few, start, last, -, -, -, -, behind, -, points⟩ := id h
  have ordered' := he.ordered_padded
  have padded' := size_padded_knots he
  have length' : e.points.vectors.length = e.pointCount := rfl
  have positive := hc.degree_pos
  have reached : e.spline.knots.knot (r - s + c.degree) ≤ t := by
    rwa [behind _ (by omega) (by omega)]
  obtain ⟨-, upTo⟩ := KnotVector.within_of_onSpan on
  obtain ⟨t', low, high, low', high'⟩ := exists_between_of_onSpan on (domain.symm ▸ on')
  refine (he.definedVector_eq_of_run hc h.vectorSize.symm degree.symm (l := k)
    (n := r - s + c.degree - k) (m := 1) hk hk' (by omega) (by omega) le_rfl (by omega)
    (fun x hx hx' => ?_) (fun x hx hx' => ?_) (fun j hj hj' => ?_) on on' low high low'
    high').symm
  · -- a span that ends before that knot ends with a run of knots that equal `t`
    exact le_antisymm ((ordered'.knot_le (by omega) (by omega)).trans reached)
      (upTo.trans (ordered'.knot_le (by omega) (by omega)))
  · exact (behind x (by omega) (by omega)).symm
  · exact (points j (by omega)).symm

end Values

/-! ## §6. Removal from a curve. -/

/-- Inside the padding a curve on another spline has the knots of that spline. -/
theorem knot_withSpline {S : Spline K} {i : Nat} (pos : 0 < i) (inside : i + 1 < S.knots.size) :
    (c.withSpline S).spline.knots.knot i = S.knots.knot i := by
  obtain ⟨i, rfl⟩ : ∃ k, i = k + 1 := ⟨i - 1, by omega⟩
  have size : i < (c.withSpline S).knots.size := by
    show i < S.knots.unpadded.size
    rw [KnotVector.size_unpadded]
    omega
  exact (KnotVector.knot_padded _ _ size).trans (KnotVector.knot_unpadded _ (by omega))

variable [IsStrictOrderedRing K]

/-- The interior knots of a valid curve, as its spline counts them. -/
theorem Regular.interior_spline (h : c.Regular) {index0 index1 : Nat} (lt : index0 < index1)
    (high : index1 ≤ c.pointCount - 1)
    (inner : ∀ i, index0 ≤ i → i < index1 →
      c.domain.1 < c.knots.knot i ∧ c.knots.knot i < c.domain.2) :
    c.spline.Interior index0 (index1 - index0) := by
  have two := h.two_le_order
  have enough := h.order_le
  have knots := h.knotCount_eq
  have padded := size_padded_knots h.toSound
  have length : c.points.vectors.length = c.pointCount := rfl
  have degree : c.degree = c.order - 1 := rfl
  have knot : ∀ i, index0 < i → i ≤ index0 + (index1 - index0) →
      ∃ k, index0 ≤ k ∧ k < index1 ∧ c.spline.knots.knot i = c.knots.knot k := by
    intro i hi hi'
    obtain ⟨k, rfl⟩ : ∃ k, i = k + 1 := ⟨i - 1, by omega⟩
    refine ⟨k, by omega, by omega, KnotVector.knot_padded _ _ ?_⟩
    show k < c.knotCount
    omega
  refine ⟨h.toSound.ordered_padded, padded, by omega, fun i hi hi' => ?_, fun i hi hi' => ?_⟩
  · obtain ⟨k, hk, hk', same⟩ := knot i hi hi'
    rw [same]
    exact ⟨h.toSound.domain_start ▸ (inner k hk hk').1,
      h.toSound.domain_finish ▸ (inner k hk hk').2⟩
  · obtain ⟨k, hk, hk', same⟩ := knot i hi hi'
    rw [same]
    exact (h.count_padded_knot (inner k hk hk').1 (inner k hk hk').2 (by omega)).2

variable [Precision K] [Precision.Exact K]

/-- **What the removal of one knot loses.** -/
theorem losesKnot_removeKnots {i : Nat} (ok : c.removeKnots i (i + 1) = .ok e) :
    LosesKnot c e (c.spline.place (c.knots.knot i)) (c.spline.knots.count (c.knots.knot i)) := by
  obtain ⟨valid, index, -, index', -, -⟩ := removeKnots_eq_ok ok
  obtain ⟨-, dimension, order, domain, -, -, count⟩ := removeKnots_spec ok
  obtain ⟨-, -, ⟨start, finish⟩, rfl⟩ := (removeKnots_one_iff valid).1 ok
  have h := regular_of_isValid valid
  have two := h.two_le_order
  have knotCount := h.knotCount_eq
  obtain ⟨pos, few⟩ := h.count_padded_knot start finish (by omega)
  have spans := h.toSound.spans start.le finish
  have start' : c.spline.knots.knot c.spline.degree < c.knots.knot i :=
    h.toSound.domain_start ▸ start
  obtain ⟨low, high, -, value⟩ := spans.place_bounds start' pos few
  obtain ⟨-, copies, removable⟩ := spans.removable start' pos few
  have padded := size_padded_knots h.toSound
  have length : c.points.vectors.length = c.pointCount := rfl
  have degree : c.degree = c.order - 1 := rfl
  have points : c.spline.points.length = c.pointCount := rfl
  have size := Spline.size_knots_remove removable
  refine
    { vectorSize := vectorSize_withSpline c _
      degree := by rw [Curve.degree, order, degree]
      domain := domain
      pointCount := by omega
      pos := pos
      le_degree := few
      degree_lt := low
      lt_pointCount := high
      lt_finish := value.symm ▸ finish
      lt_run := by
        rw [value]
        exact spans.knot_lt (by omega)
      run := fun k hk hk' => (spans.knot_eq hk' (by omega)).trans value.symm
      knot_before := fun k hk hk' => ?_
      knot_behind := fun k hk hk' => ?_
      point_before := fun j hj => by
        rw [vectors_withSpline, spans.getD_remove_of_lt start' pos few hj]
        rfl
      point_behind := fun j hj => by
        rw [vectors_withSpline, spans.getD_remove_of_le start' pos few hj]
        rfl }
  · rw [knot_withSpline hk (by omega), Spline.knot_remove_of_lt hk']
  · rw [knot_withSpline (by omega) (by omega)]
    rcases Nat.lt_or_ge k (c.spline.place (c.knots.knot i)) with within | out
    · -- the knots of the run are the same from either side
      rw [Spline.knot_remove_of_lt within, spans.knot_eq within.le (by omega),
          spans.knot_eq within (by omega)]
    · exact Spline.knot_remove_of_le out

/-- **Removing knots is local.**

In all numbers that compare, the knots at the indices go, or others that equal them, with as many
control points, and the domain and the control points at the ends stay.

In exact numbers no divisor is 0.  When one knot goes, of multiplicity `s` and with the last copy
at the padded index `r`, the curve keeps its value up to the knot `r - p` and from the knot
`r - s + p + 1` on. -/
theorem removeKnots_local {index0 index1 : Nat} (valid : c.isValid = true)
    (ok : c.removeKnots index0 index1 = .ok e) :
    (∀ (α : Type) [Scalar α] [Scalar.Compares α] [Precision α] (c e : Curve α)
        (index0 index1 : Nat),
        c.removeKnots index0 index1 = .ok e →
          List.Forall₂ (fun a b => (a == b) = true) e.knots.values
              (c.knots.values.take index0 ++ c.knots.values.drop index1)
            ∧ e.pointCount + (index1 - index0) = c.pointCount
            ∧ e.domain = c.domain
            ∧ e.points.vectors.head? = c.points.vectors.head?
            ∧ e.points.vectors.getLast? = c.points.vectors.getLast?)
      ∧ e.knots.values = c.knots.values.take index0 ++ c.knots.values.drop index1
      ∧ (∃ T, c.spline.removeEachDividing? (Spline.downFrom index0 (index1 - index0)) = some T
        ∧ e = c.withSpline T)
      ∧ (index1 = index0 + 1 → ∃ r,
        Sequence.lastIndex? (· == c.knots.knot index0) c.spline.knots.values = some r
          ∧ ∀ t, c.domain.1 ≤ t → t ≤ c.domain.2 →
            t ≤ c.spline.knots.knot (r - c.degree)
              ∨ c.spline.knots.knot
                  (r - c.spline.knots.count (c.knots.knot index0) + c.degree + 1) ≤ t →
            e.definedAt t = c.definedAt t) := by
  obtain ⟨-, low, lt, high, inner, T, removed, same⟩ := removeKnots_eq_ok ok
  obtain ⟨sound, -⟩ := removeKnots_spec ok
  obtain ⟨knots, -⟩ := removeKnots_keeps ok
  have h := regular_of_isValid valid
  have two := h.two_le_order
  have count := h.knotCount_eq
  obtain ⟨T', removed', divided⟩ := (h.interior_spline lt high inner).removeEach
  rw [removed] at removed'
  cases removed'
  refine ⟨fun α _ _ _ c e index0 index1 ok => removeKnots_keeps ok, ?_, ⟨T, divided, same⟩, ?_⟩
  · -- equal numbers are the same over a field
    simpa only [beq_iff_eq, List.forall₂_eq_eq_eq] using knots
  · rintro rfl
    obtain ⟨start, finish⟩ := inner index0 le_rfl (Nat.lt_succ_self _)
    obtain ⟨pos, -⟩ := h.count_padded_knot start finish (by omega)
    have spans := h.toSound.spans start.le finish
    have loses := losesKnot_removeKnots ok
    refine ⟨c.spline.place (c.knots.knot index0), ?_, fun t h₀ h₁ side => ?_⟩
    · rw [spans.place_eq]
      exact spans.ordered.lastIndex?_eq pos
    · refine definedAt_congr (by rw [same, isRational_withSpline]) ?_
      rcases side with le | ge
      · exact loses.definedVector_of_le h.toSound sound h₀ le
      · exact loses.definedVector_of_ge h.toSound sound h₁ ge

/-- Hills of degree 2, with a break at 2. -/
def hills : Curve ℚ where
  dimension := 1
  order := 3
  points := .cartesian [[0], [1], [0], [2], [1], [3], [0], [1]]
  knots := ⟨[0, 0, 1, 2, 2, 3, 4, 5, 5]⟩

/-- Without one of the two knots at the break, the hills change between 1 and 3 only. -/
theorem removeKnots_local_hills :
    hills.isValid = true ∧ ∃ e, hills.removeKnots 3 4 = .ok e
      ∧ e.knots.values = [0, 0, 1, 2, 3, 4, 5, 5]
      ∧ e.pointCount = 7
      ∧ e.domain = (0, 5)
      ∧ e.points.vectors.head? = some [0] ∧ e.points.vectors.getLast? = some [1]
      ∧ ∀ t, 0 ≤ t → t ≤ 5 → t ≤ 1 ∨ 3 ≤ t → e.definedAt t = hills.definedAt t := by
  have valid : hills.isValid = true := by decide +kernel
  have removed := (removeKnots_one_iff (i := 3) valid).2
    ⟨by decide, by decide, by decide +kernel, rfl⟩
  obtain ⟨compared, knots, -, sides⟩ := removeKnots_local valid removed
  obtain ⟨-, count, domain, first, last⟩ := compared ℚ hills _ 3 4 removed
  obtain ⟨r, found, values⟩ := sides rfl
  have place : r = 5 := Option.some.inj (found.symm.trans (by decide +kernel))
  subst place
  have bounds : hills.domain = (0, 5) := by decide +kernel
  have low : hills.spline.knots.knot (5 - hills.degree) = 1 := by decide +kernel
  have high : hills.spline.knots.knot
      (5 - hills.spline.knots.count (hills.knots.knot 3) + hills.degree + 1) = 3 := by
    decide +kernel
  have whole : hills.pointCount = 8 := rfl
  rw [bounds, low, high] at values
  exact ⟨valid, _, removed, knots.trans (by decide +kernel), by omega, domain.trans bounds,
    first.trans rfl, last.trans rfl, values⟩

/-- An arc of degree 2 in double precision, over a long span and a short one. -/
def longArc : Curve Float :=
  ⟨1, 3, .cartesian [[0], [1], [0], [1]], ⟨[-1e17, -1e17, 0, 1, 1]⟩⟩

/-- In double precision a knot may divide a support so close to its end that a divisor is 0: the
removal goes on and leaves a control point at infinity. -/
theorem longArc_removeKnots :
    longArc.isValid = true
      ∧ longArc.spline.removeEachDividing? (Spline.downFrom 2 1) = none
      ∧ longArc.removeKnots 2 3
        = .ok ⟨1, 3, .cartesian [[0], [-1 / 0], [1]], ⟨[-1e17, -1e17, 1, 1]⟩⟩ :=
  ⟨by decide +kernel, by decide +kernel, eq_ok_of_toOption (by decide +kernel)⟩

end Curve

end RationalSpline
