/-
  RationalSpline.Proofs.MirroredRemoval
  ─────────────────────────────────────
  REMOVAL IN THE OPPOSITE DIRECTION.

  Seen from the other end of a spline, the share of a knot in a support is what is left
  of 1, so the upward sweep of a removal is the downward sweep of the mirrored one.
  Where both have solved for the point in the middle, the average does not care which of
  them was first.  Of a run of equal knots the last one goes, in either direction, and
  that leaves the same knots.
-/
import RationalSpline.Proofs.RemovedInsertion
import RationalSpline.Proofs.Reversal

namespace RationalSpline

variable {K : Type} [Field K] [LinearOrder K]

/-! ## §1. The two sweeps. -/

/-- A part of a list, read backwards. -/
theorem Sequence.take_drop_reverse {β : Type} {values : List β} {i j n : Nat}
    (size : i + j + n = values.length) :
    (values.reverse.drop i).take n = ((values.drop j).take n).reverse := by
  rw [List.drop_reverse, List.take_reverse, List.drop_take, List.length_take,
      show min (values.length - i) values.length - n = j by omega,
      show values.length - i - j = n by omega]

theorem Point.add_swap (x y : Point K) : add x y = add y x :=
  List.zipWith_comm_of_comm add_comm

namespace Spline

variable {U : KnotVector K} {p : Nat} {u : K}

/-- In the opposite direction the position in a support is what is left of 1. -/
theorem ratio_invert {i j : Nat} (size : i + j + p + 2 = U.size)
    (width : U.knot i ≠ U.knot (i + (p + 1))) :
    ratio U.invert p (-u) j = 1 - ratio U p u i := by
  have low : U.invert.knot j = -U.knot (i + (p + 1)) := U.knot_invert_opposite (by omega)
  have high : U.invert.knot (j + (p + 1)) = -U.knot i := U.knot_invert_opposite (by omega)
  have nonzero : U.knot (i + (p + 1)) - U.knot i ≠ 0 := sub_ne_zero.2 width.symm
  have nonzero' : -U.knot i + U.knot (i + (p + 1)) ≠ 0 := by rwa [neg_add_eq_sub]
  rw [ratio, ratio, low, high, sub_neg_eq_add, sub_neg_eq_add]
  field_simp
  ring

/-- **Mirrored, the downward sweep goes upward.** -/
theorem sweepUp_invert {points : List (Point K)} {i j : Nat} (size : i + j + p + 2 = U.size)
    (room : points.length ≤ i + 1)
    (width : ∀ r < points.length, U.knot (i - r) ≠ U.knot (i - r + (p + 1))) (x : Point K) :
    sweepUp U.invert p (-u) j x points = sweepDown U p u i x points := by
  induction points generalizing i j x with
  | nil => rfl
  | cons q qs ih =>
      have share : ratio U.invert p (-u) j = 1 - ratio U p u i :=
        ratio_invert size (width 0 (Nat.succ_pos _))
      rw [sweepUp, sweepDown, share, sub_sub_cancel]
      refine congrArg (_ :: ·) ?_
      -- one index further down is one further up from the other end
      cases qs with
      | nil => rfl
      | cons q' qs =>
          rw [List.length_cons, List.length_cons] at room
          refine ih (i := i - 1) (by omega) (by rw [List.length_cons]; omega) (fun r hr => ?_) _
          have := width (r + 1) (by rw [List.length_cons]; omega)
          rwa [show i - (r + 1) = i - 1 - r by omega] at this

/-- **Mirrored, the upward sweep goes downward.** -/
theorem sweepDown_invert {points : List (Point K)} {i j : Nat} (size : i + j + p + 2 = U.size)
    (room : points.length ≤ j + 1)
    (width : ∀ r < points.length, U.knot (i + r) ≠ U.knot (i + r + (p + 1))) (x : Point K) :
    sweepDown U.invert p (-u) j x points = sweepUp U p u i x points := by
  have back := sweepUp_invert (U := U.invert) (u := -u) (p := p) (i := j) (j := i)
    (by rw [KnotVector.size_invert]; omega) room (fun r hr => ?_) x
  · rw [KnotVector.invert_invert, neg_neg] at back
    exact back.symm
  · rw [U.knot_invert (by omega), U.knot_invert (by omega), Ne, neg_inj,
        show U.size - 1 - (j - r) = i + r + (p + 1) by omega,
        show U.size - 1 - (j - r + (p + 1)) = i + r by omega]
    exact (width r hr).symm

/-- **The points that a mirrored removal solves for are those of the removal.** -/
theorem unblend_mirror {S : Spline K} (first last : Nat)
    (size : S.knots.size = S.points.length + S.degree + 1) (pos : 0 < first) (le : first ≤ last)
    (inside : last + 1 < S.points.length)
    (width : ∀ i, first ≤ i → i ≤ last → S.knots.knot i ≠ S.knots.knot (i + (S.degree + 1))) :
    S.mirror.unblend (-u) (S.points.length - 1 - last) (S.points.length - 1 - first)
      = (S.unblend u first last).reverse := by
  obtain ⟨n, hn⟩ : ∃ n, n = (last - first + 1) / 2 := ⟨_, rfl⟩
  have steps : (S.points.length - 1 - first - (S.points.length - 1 - last) + 1) / 2 = n := by omega
  -- the parts that the two sweeps run through
  have front : (S.points.reverse.drop (S.points.length - 1 - last)).take n
      = ((S.points.drop (last + 1 - n)).take n).reverse :=
    Sequence.take_drop_reverse (by omega)
  have back : (S.points.reverse.drop (S.points.length - 1 - first + 1 - n)).take n
      = ((S.points.drop first).take n).reverse := Sequence.take_drop_reverse (by omega)
  have up : sweepUp S.knots.invert S.degree (-u) (S.points.length - 1 - last)
        (S.points.reverse.getD (S.points.length - 1 - last - 1) [])
        ((S.points.reverse.drop (S.points.length - 1 - last)).take n)
      = sweepDown S.knots S.degree u last (S.points.getD (last + 1) [])
        ((S.points.drop (last + 1 - n)).take n).reverse := by
    rw [Sequence.getD_reverse (by omega), front,
        show S.points.length - 1 - (S.points.length - 1 - last - 1) = last + 1 by omega]
    refine sweepUp_invert (by omega) ?_ (fun r hr => ?_) _
    · rw [List.length_reverse, List.length_take]
      omega
    · rw [List.length_reverse, List.length_take] at hr
      exact width _ (by omega) (by omega)
  have down : sweepDown S.knots.invert S.degree (-u) (S.points.length - 1 - first)
        (S.points.reverse.getD (S.points.length - 1 - first + 1) [])
        ((S.points.reverse.drop (S.points.length - 1 - first + 1 - n)).take n).reverse
      = sweepUp S.knots S.degree u first (S.points.getD (first - 1) [])
        ((S.points.drop first).take n) := by
    rw [Sequence.getD_reverse (by omega), back, List.reverse_reverse,
        show S.points.length - 1 - (S.points.length - 1 - first + 1) = first - 1 by omega]
    refine sweepDown_invert (by omega) ?_ (fun r hr => ?_) _
    · rw [List.length_take]
      omega
    · rw [List.length_take] at hr
      exact width _ (by omega) (by omega)
  have parity : (S.points.length - 1 - first - (S.points.length - 1 - last)) % 2
      = (last - first) % 2 := by
    rw [show S.points.length - 1 - first - (S.points.length - 1 - last) = last - first by omega]
  unfold unblend
  dsimp only [mirror]
  rw [steps, ← hn, up, down, parity]
  split
  · rw [List.reverse_append, List.reverse_reverse]
  · -- the average takes the two answers for the middle in either order
    rw [Point.add_swap]
    simp

/-! ## §2. The knot that goes. -/

/-- Removal by the range of control points that it replaces. -/
theorem remove_eq {S : Spline K} {r first last : Nat} (value : S.knots.knot r = u)
    (low : r - S.degree = first) (high : r - S.knots.count u = last) :
    S.remove r = ⟨S.degree, ⟨S.knots.values.eraseIdx r⟩,
      S.points.take first ++ S.unblend u first last ++ S.points.drop (last + 1)⟩ := by
  subst value low high
  rfl

end Spline

/-- Of equal knots any one may go, in either direction. -/
theorem KnotVector.Ordered.eraseIdx_invert [IsStrictOrderedRing K] {U : KnotVector K}
    (h : U.Ordered) {i j : Nat} (hi : i < U.size) (hj : j < U.size)
    (same : U.knot (U.size - 1 - j) = U.knot i) :
    U.invert.values.eraseIdx j = (⟨U.values.eraseIdx i⟩ : KnotVector K).invert.values := by
  have inside : j < U.invert.values.length := by
    show j < U.invert.size
    rwa [size_invert]
  have ordered : (⟨U.values.eraseIdx i⟩ : KnotVector K).Ordered :=
    h.sublist (List.eraseIdx_sublist _ _)
  have removed : U.invert.values[j] = -U.values[i] := by
    rw [← knot_eq_getElem _ inside, ← knot_eq_getElem _ hi, U.knot_invert hj, same]
  -- the same number goes from both, and what is left is in order
  have left := List.getElem_cons_eraseIdx_perm inside
  have right : (-U.values[i] :: (⟨U.values.eraseIdx i⟩ : KnotVector K).invert.values).Perm
      U.invert.values := by
    have whole := (List.getElem_cons_eraseIdx_perm hi).map Neg.neg
    rw [List.map_cons] at whole
    exact ((invert_perm _).cons _).trans (whole.trans U.invert_perm.symm)
  rw [removed] at left
  exact List.Perm.eq_of_pairwise (fun _ _ _ _ => le_antisymm)
    (h.invert.sublist (List.eraseIdx_sublist _ _)) ordered.invert
    (left.trans right.symm).cons_inv

namespace Spline.Spans

variable {S : Spline K} {u : K}

/-- A knot behind the start of the domain can be removed. -/
theorem removable (h : S.Spans u) (start : S.knots.knot S.degree < u) (pos : 0 < S.knots.count u)
    (few : S.knots.count u ≤ S.degree) :
    S.degree < S.place u ∧ S.knots.count u ≤ S.place u ∧ S.removable (S.place u) = true := by
  have place := h.place_eq
  have size := h.size_eq
  have finish := h.countUpTo_le_length
  have split := S.knots.countUpTo_eq u
  have below := (h.ordered.knot_lt_iff (by omega)).1 start
  have value : S.knots.knot (S.place u) = u := h.knot_eq le_rfl (by omega)
  refine ⟨by omega, by omega, ?_⟩
  simp only [Spline.removable, value, decide_eq_true_eq]
  omega

/-- One removal takes the last knot of the run. -/
theorem removeEach_singleton (h : S.Spans u) (start : S.knots.knot S.degree < u)
    (pos : 0 < S.knots.count u) (few : S.knots.count u ≤ S.degree) {i : Nat}
    (value : S.knots.knot (i + 1) = u) :
    Curve.removeEach S [i] = some (S.remove (S.place u)) := by
  obtain ⟨-, -, removable⟩ := h.removable start pos few
  rw [Curve.removeEach, value, h.ordered.lastIndex?_eq pos, Option.getD_some, ← h.place_eq, remove?,
      if_pos removable]
  rfl

variable [IsStrictOrderedRing K]

/-- It lies in the domain of the mirrored spline. -/
theorem mirror (h : S.Spans u) (start : S.knots.knot S.degree < u) : S.mirror.Spans (-u) where
  ordered := h.ordered.invert
  size_eq := by
    show S.knots.invert.size = S.points.reverse.length + S.degree + 1
    rw [KnotVector.size_invert, List.length_reverse, h.size_eq]
  start_le := by
    have size := h.size_eq
    show S.knots.invert.knot S.degree ≤ -u
    rw [S.knots.knot_invert (by omega),
        show S.knots.size - 1 - S.degree = S.points.length by omega]
    exact neg_le_neg h.lt_finish.le
  lt_finish := by
    have size := h.size_eq
    show -u < S.knots.invert.knot S.points.reverse.length
    rw [List.length_reverse, S.knots.knot_invert (by omega),
        show S.knots.size - 1 - S.points.length = S.degree by omega]
    exact neg_lt_neg start

/-- The last knot of a run is the first one of the mirrored run. -/
theorem place_mirror (h : S.Spans u) (start : S.knots.knot S.degree < u) :
    S.mirror.place (-u) = S.knots.size - 1 - (S.place u - S.knots.count u + 1) := by
  have place := h.place_eq
  have place' := (h.mirror start).place_eq
  have size := h.size_eq
  have split := S.knots.countUpTo_eq u
  have below := (h.ordered.knot_lt_iff (by omega)).1 start
  have whole : S.mirror.knots.countUpTo (-u) + S.knots.countBelow u = S.knots.size :=
    S.knots.countUpTo_invert u
  omega

/-- **Removal commutes with the change of direction.** -/
theorem remove_mirror (h : S.Spans u) (start : S.knots.knot S.degree < u)
    (pos : 0 < S.knots.count u) (few : S.knots.count u ≤ S.degree) :
    S.mirror.remove (S.mirror.place (-u)) = (S.remove (S.place u)).mirror := by
  obtain ⟨low, copies, -⟩ := h.removable start pos few
  have place := h.place_eq
  have size := h.size_eq
  have finish := h.countUpTo_le_length
  obtain ⟨r, hr⟩ : ∃ r, r = S.place u := ⟨_, rfl⟩
  obtain ⟨s, hs⟩ : ∃ s, s = S.knots.count u := ⟨_, rfl⟩
  have value : S.knots.knot r = u := h.knot_eq hr.le (by omega)
  -- from the other end the first knot of the run is the last
  have value' : S.knots.knot (r - s + 1) = u := h.knot_eq (by omega) (by omega)
  have other : S.knots.size - 1 - (S.knots.size - 1 - (r - s + 1)) = r - s + 1 := by omega
  have mirrored : S.knots.invert.knot (S.knots.size - 1 - (r - s + 1)) = -u := by
    rw [S.knots.knot_invert (by omega), other, value']
  have knots : S.knots.invert.values.eraseIdx (S.knots.size - 1 - (r - s + 1))
      = (⟨S.knots.values.eraseIdx r⟩ : KnotVector K).invert.values :=
    h.ordered.eraseIdx_invert (by omega) (by omega) (by rw [other, value', value])
  have solved := unblend_mirror (u := u) (r - S.degree) (r - s) size (by omega)
    (by omega) (by omega) fun i hi hi' =>
      ((h.knot_lt (by omega)).trans (h.lt_knot (by omega) (by omega))).ne
  have front : S.points.reverse.take (S.points.length - 1 - (r - s))
      = (S.points.drop (r - s + 1)).reverse := by
    rw [List.take_reverse]
    congr 2
    omega
  have back : S.points.reverse.drop (S.points.length - 1 - (r - S.degree) + 1)
      = (S.points.take (r - S.degree)).reverse := by
    rw [List.drop_reverse]
    congr 2
    omega
  have low' : S.knots.size - 1 - (r - s + 1) - S.mirror.degree = S.points.length - 1 - (r - s) := by
    show S.knots.size - 1 - (r - s + 1) - S.degree = _
    omega
  have high' : S.knots.size - 1 - (r - s + 1) - S.mirror.knots.count (-u)
      = S.points.length - 1 - (r - S.degree) := by
    show _ - S.knots.invert.count (-u) = _
    rw [KnotVector.count_invert]
    omega
  rw [h.place_mirror start, ← hr, ← hs, remove_eq (S := S.mirror) mirrored low' high', solved,
      remove_eq value rfl (congrArg (r - ·) hs.symm)]
  refine congrArg₂ (Spline.mk S.degree) (congrArg KnotVector.mk knots) ?_
  show S.points.reverse.take _ ++ _ ++ S.points.reverse.drop _ = List.reverse _
  rw [front, back]
  simp

end Spline.Spans

end RationalSpline
