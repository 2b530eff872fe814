/-
  RationalSpline.Proofs.PointArray
  ────────────────────────────────
  CONTROL POINTS AS AN ARRAY OF PAIRS.

  Seen from outside, the control points of a curve are an array of pairs, a location and
  a weight each, and a flag that says whether the curve stores weights.  On that array
  the edits of control points are plain writes.  Inside, a curve without weights stores
  locations only, a rational one homogeneous vectors, and the first write of a weight
  other than 1 turns one into the other.

  Main statement: the writes on the array and the edits of the curve go step by step the
  same way, refusals included (`pointEdits_write_array`).
-/
import RationalSpline.Proofs.Runs

namespace RationalSpline

/-! ## §1. The array and the writes. -/

/-- Control points as seen from outside. -/
structure PointArray (α : Type) where
  /-- The number of coordinates of a location. -/
  dimension : Nat
  /-- Whether weights are stored. -/
  rational : Bool
  /-- Each location with its weight. -/
  entries : List (Point α × α)

/-- A change of control points or weights. -/
inductive PointEdit (α : Type) where
  /-- Move a control point. -/
  | setLocation (index : Nat) (point : Point α)
  /-- Set a control point and its weight. -/
  | setHomogeneous (index : Nat) (point : Point α)
  /-- Set a weight. -/
  | setWeight (index : Nat) (weight : α)
  /-- Store weights. -/
  | makeRational
  /-- Drop the weights. -/
  | makeNonRational
  /-- Move all control points to the origin. -/
  | zeroPoints

namespace PointEdit

variable {α : Type}

/-- The change as an edit of a curve. -/
def toEdit : PointEdit α → Edit α
  | setLocation index point => .setLocation index point
  | setHomogeneous index point => .setHomogeneous index point
  | setWeight index weight => .setWeight index weight
  | makeRational => .makeRational
  | makeNonRational => .makeNonRational
  | zeroPoints => .zeroPoints

/-- The weight that is written to an entry. -/
def weight? [Scalar α] : PointEdit α → Option α
  | setHomogeneous _ point => some point.weight
  | setWeight _ weight => some weight
  | _ => none

/-- Whether weights are stored after a change, given whether they are before. -/
def storesWeights [Scalar α] (before : Bool) : PointEdit α → Bool
  | makeRational => true
  | makeNonRational => false
  | edit => before || edit.weight?.any (· != 1)

end PointEdit

namespace PointArray

variable {α : Type} [Scalar α]

/-- Some weight differs from the first by more than the zero tolerance. -/
def weightsDiffer (s : PointArray α) : Bool :=
  match s.entries with
  | [] => false
  | (_, first) :: _ => s.entries.any fun (_, w) =>
      decide (Scalar.zeroTolerance * first < Scalar.abs (w - first))

variable [Precision α]

/-- The array after a write that is accepted, or why it is refused. -/
def write (s : PointArray α) : PointEdit α → Except (Failure α) (PointArray α)
  | .setLocation index x => do
      checkIndex index s.entries.length
      checkSize x s.dimension
      .ok { s with entries := s.entries.modify index fun (_, w) => (x, w) }
  | .setHomogeneous index p => do
      checkIndex index s.entries.length
      checkSize p (s.dimension + 1)
      checkWeight p.weight
      .ok { s with
        rational := s.rational || p.weight != 1
        entries := s.entries.set index (p.dehomogenize, p.weight) }
  | .setWeight index w => do
      checkIndex index s.entries.length
      checkWeight w
      .ok { s with
        rational := s.rational || w != 1
        entries := s.entries.modify index fun (x, _) => (x, w) }
  | .makeRational => .ok { s with rational := true }
  | .makeNonRational =>
      if s.weightsDiffer then .error (.outOfDomain .weightsDiffer)
      else .ok { s with rational := false, entries := s.entries.map fun (x, _) => (x, 1) }
  | .zeroPoints =>
      .ok { s with entries := s.entries.map fun _ => (Point.zero s.dimension, 1) }

/-- The array after a write; a write that is refused changes nothing. -/
def step (s : PointArray α) (edit : PointEdit α) : PointArray α :=
  match s.write edit with
  | .ok after => after
  | .error _ => s

/-- Why a write is refused, if it is. -/
def refusal (s : PointArray α) (edit : PointEdit α) : Option (Failure α) :=
  match s.write edit with
  | .ok _ => none
  | .error e => some e

/-- The array after several writes. -/
def run (s : PointArray α) (edits : List (PointEdit α)) : PointArray α := edits.foldl step s

end PointArray

/-- The control points of a curve as an array. -/
def Curve.array {α : Type} [Scalar α] (c : Curve α) : PointArray α where
  dimension := c.dimension
  rational := c.isRational
  entries := (List.range c.pointCount).map fun i => (c.points.location i, c.points.weight i)

variable {K : Type} [Field K] [LinearOrder K]

/-! ## §2. Homogeneous points. -/

namespace Point

theorem dehomogenize_concat_one (x : Point K) : dehomogenize (x ++ [1]) = x := by
  simp [dehomogenize, weight, divide]

theorem dehomogenize_homogenize (x : Point K) {w : K} (nonzero : w ≠ 0) :
    dehomogenize (homogenize x w) = x := by
  simp [dehomogenize, homogenize, weight, divide, scale, Function.comp_def, nonzero]

/-- Of weight 1, a point is located at its leading coordinates. -/
theorem dehomogenize_of_weight_one {p : Point K} {n : Nat} (length : p.length = n + 1)
    (one : p.weight = 1) : dehomogenize p = p.take n := by
  rw [dehomogenize, one, List.dropLast_eq_take, length, Nat.add_sub_cancel]
  simp [divide]

end Point

namespace ControlPoints

variable {P : ControlPoints K} {i : Nat}

omit [Field K] [LinearOrder K] in
/-- A stored vector takes the place of one entry and leaves the others. -/
theorem getD_vectors_set (P : ControlPoints K) (i j : Nat) (p : Point K) (hj : j < P.length) :
    (P.set i p).vectors.getD j [] = if j = i then p else P.vectors.getD j [] := by
  have inside : j < P.vectors.length := hj
  rw [set, vectors_withVectors, List.getD_eq_getElem _ _ (by simpa using inside),
      List.getElem_set, List.getD_eq_getElem _ _ inside]
  simp only [eq_comm]

theorem entry_set_of_isRational (rational : P.isRational = true) (p : Point K) {j : Nat}
    (hj : j < P.length) :
    ((P.set i p).location j, (P.set i p).weight j)
      = if j = i then (p.dehomogenize, p.weight) else (P.location j, P.weight j) := by
  have rational' : (P.set i p).isRational = true := (isRational_set P i p).trans rational
  rw [location_of_isRational rational', weight_of_isRational rational', getD_vectors_set P i j p hj,
      location_of_isRational rational, weight_of_isRational rational]
  split <;> rfl

theorem entry_set_of_not_isRational (cartesian : P.isRational = false) (p : Point K) {j : Nat}
    (hj : j < P.length) :
    ((P.set i p).location j, (P.set i p).weight j)
      = if j = i then (p, 1) else (P.location j, P.weight j) := by
  have vector := getD_vectors_set P i j p hj
  cases P with
  | homogeneous => cases cartesian
  | cartesian points =>
      show ((ControlPoints.vectors (.set (.cartesian points) i p)).getD j [], (1 : K)) = _
      rw [vector]
      split <;> rfl

/-- Weights of 1 change no entry. -/
theorem entry_toRational (P : ControlPoints K) {j : Nat} (hj : j < P.length) :
    (P.toRational.location j, P.toRational.weight j) = (P.location j, P.weight j) := by
  cases P with
  | homogeneous => rfl
  | cartesian points =>
      have inside : j < points.length := hj
      have vector : (points.map (· ++ [(1 : K)])).getD j [] = points[j] ++ [1] := by
        rw [List.getD_eq_getElem _ _ (by simpa using inside), List.getElem_map]
      show (Point.dehomogenize ((points.map (· ++ [(1 : K)])).getD j []),
          Point.weight ((points.map (· ++ [(1 : K)])).getD j [])) = (points.getD j [], 1)
      rw [vector, Point.dehomogenize_concat_one, Point.weight, List.getLastD_concat,
          List.getD_eq_getElem _ _ inside]

end ControlPoints

/-! ## §3. Writes to a list that is numbered. -/

namespace Sequence

variable {β : Type}

theorem modify_map_range (n i : Nat) (f : β → β) (g : Nat → β) :
    ((List.range n).map g).modify i f
      = (List.range n).map fun j => if j = i then f (g j) else g j := by
  refine List.ext_getElem (by simp) fun j h₁ h₂ => ?_
  rw [List.getElem_modify]
  simp only [List.getElem_map, List.getElem_range, eq_comm]

theorem set_map_range (n i : Nat) (x : β) (g : Nat → β) :
    ((List.range n).map g).set i x = (List.range n).map fun j => if j = i then x else g j := by
  refine List.ext_getElem (by simp) fun j h₁ h₂ => ?_
  rw [List.getElem_set]
  simp only [List.getElem_map, List.getElem_range, eq_comm]

end Sequence

/-! ## §4. Each edit is a write. -/

namespace Curve

variable {c e : Curve K}

@[simp] theorem length_array_entries (c : Curve K) : c.array.entries.length = c.pointCount := by
  simp [array]

/-- Arrays are equal when they have the same flag and the same entries. -/
theorem array_eq {s : PointArray K} (dimension : c.dimension = s.dimension)
    (rational : c.isRational = s.rational) {f : Nat → Point K × K}
    (entries : s.entries = (List.range c.pointCount).map f)
    (same : ∀ j < c.pointCount, (c.points.location j, c.points.weight j) = f j) :
    c.array = s := by
  obtain ⟨_, _, _⟩ := s
  obtain rfl : _ = _ := entries
  rw [array, dimension, rational]
  exact congrArg _ (List.map_congr_left fun j hj => same j (List.mem_range.1 hj))

theorem array_makeRational (c : Curve K) :
    c.makeRational.array = { c.array with rational := true } :=
  array_eq rfl (isRational_makeRational c)
      (congrArg _ (congrArg _ (pointCount_makeRational c).symm))
    fun _ hj => c.points.entry_toRational (hj.trans_eq (pointCount_makeRational c))

/-- A vector stored in a rational curve replaces one entry. -/
theorem array_store_of_isRational (rational : c.isRational = true) (i : Nat) (p : Point K) :
    (c.store i p).array
      = { c.array with entries := c.array.entries.set i (p.dehomogenize, p.weight) } :=
  array_eq rfl (ControlPoints.isRational_set _ _ _)
    ((Sequence.set_map_range _ _ _ _).trans
      (congrArg _ (congrArg _ (ControlPoints.length_set c.points i p).symm)))
    fun _ hj => c.points.entry_set_of_isRational rational p
      (hj.trans_eq (ControlPoints.length_set c.points i p))

/-- A location stored in a curve without weights replaces one entry. -/
theorem array_store_of_not_isRational (cartesian : c.isRational = false) (i : Nat) (p : Point K) :
    (c.store i p).array = { c.array with entries := c.array.entries.set i (p, 1) } :=
  array_eq rfl (ControlPoints.isRational_set _ _ _)
    ((Sequence.set_map_range _ _ _ _).trans
      (congrArg _ (congrArg _ (ControlPoints.length_set c.points i p).symm)))
    fun _ hj => c.points.entry_set_of_not_isRational cartesian p
      (hj.trans_eq (ControlPoints.length_set c.points i p))

/-- Writing one component of an entry writes the entry. -/
theorem modify_array_entries (c : Curve K) (i : Nat) (f : Point K × K → Point K × K) :
    c.array.entries.modify i f
      = c.array.entries.set i (f (c.points.location i, c.points.weight i)) := by
  rw [array, Sequence.modify_map_range, Sequence.set_map_range]
  refine List.map_congr_left fun j _ => ?_
  split
  · next same => rw [same]
  · rfl

variable [Precision K]

theorem write_setHomogeneous (c : Curve K) (i : Nat) (p : Point K) :
    (c.setHomogeneous i p).map array = c.array.write (.setHomogeneous i p) := by
  simp only [setHomogeneous, PointArray.write, length_array_entries]
  cases (checkIndex i c.pointCount : Except (Failure K) Unit) with
  | error => rfl
  | ok =>
      show Except.map array (checkSize p (c.dimension + 1) >>= _)
        = (checkSize p (c.dimension + 1) >>= _)
      cases size : (checkSize p (c.dimension + 1) : Except (Failure K) Unit) with
      | error => rfl
      | ok =>
          have fits := checkSize_eq_ok size
          show Except.map array (checkWeight p.weight >>= _) = (checkWeight p.weight >>= _)
          cases checkWeight p.weight with
          | error => rfl
          | ok =>
              show Except.map array (if c.isRational = true then .ok (c.store i p)
                  else if (p.weight == 1) = true then .ok (c.store i (p.take c.dimension))
                  else .ok (c.makeRational.store i p))
                = .ok ⟨c.dimension, c.isRational || p.weight != 1,
                    c.array.entries.set i (p.dehomogenize, p.weight)⟩
              cases rational : c.isRational with
              | true =>
                  have stored := array_store_of_isRational rational i p
                  exact congrArg Except.ok (stored.trans (congrArg (PointArray.mk _ · _) rational))
              | false =>
                  by_cases one : p.weight = 1
                  · -- of weight 1, the leading coordinates are the location
                    have stored := array_store_of_not_isRational rational i (p.take c.dimension)
                    rw [← Point.dehomogenize_of_weight_one fits one] at stored
                    rw [one]
                    simpa [Except.map, ← Point.dehomogenize_of_weight_one fits one, array, rational]
                      using stored
                  · have stored := array_store_of_isRational (isRational_makeRational c) i p
                    rw [array_makeRational] at stored
                    have other : (p.weight != 1) = true := bne_iff_ne.2 one
                    rw [if_neg Bool.false_ne_true, if_neg (by simpa using one), other]
                    exact congrArg Except.ok stored

theorem write_setLocation [IsStrictOrderedRing K] (positive : c.points.Positive) (i : Nat)
    (x : Point K) :
    (c.setLocation i x).map array = c.array.write (.setLocation i x) := by
  simp only [setLocation, PointArray.write, length_array_entries]
  cases index : (checkIndex i c.pointCount : Except (Failure K) Unit) with
  | error => rfl
  | ok =>
      have inside := checkIndex_eq_ok index
      show Except.map array (checkSize x c.dimension >>= _) = (checkSize x c.dimension >>= _)
      cases checkSize x c.dimension with
      | error => rfl
      | ok =>
          refine congrArg Except.ok ?_
          rw [modify_array_entries]
          cases rational : c.isRational with
          | true =>
              -- the stored vector is scaled by the weight that is there
              have nonzero := (positive.weight_pos inside).ne'
              rw [if_pos rfl, array_store_of_isRational rational,
                  Point.dehomogenize_homogenize x nonzero, Point.weight_homogenize]
          | false =>
              rw [if_neg Bool.false_ne_true, array_store_of_not_isRational rational,
                  ControlPoints.weight_of_not_isRational rational]

theorem write_setWeight [Precision.Exact K] (c : Curve K) (i : Nat) (w : K) :
    (c.setWeight i w).map array = c.array.write (.setWeight i w) := by
  simp only [setWeight, PointArray.write, length_array_entries]
  cases index : (checkIndex i c.pointCount : Except (Failure K) Unit) with
  | error => rfl
  | ok =>
      have inside := checkIndex_eq_ok index
      show Except.map array (checkWeight w >>= _) = (checkWeight w >>= _)
      cases weight : (checkWeight w : Except (Failure K) Unit) with
      | error => rfl
      | ok =>
          have nonzero := (checkWeight_eq_ok weight).ne'
          show Except.map array (if (!c.isRational && w == 1) = true then .ok c
              else .ok (c.makeRational.store i
                (Point.homogenize (c.makeRational.points.location i) w)))
            = .ok ⟨c.dimension, c.isRational || w != 1,
                c.array.entries.modify i fun (x, _) => (x, w)⟩
          by_cases kept : c.isRational = false ∧ w = 1
          · -- the weight 1 is the one that a location has without weights
            obtain ⟨cartesian, rfl⟩ := kept
            rw [if_pos (by simp [cartesian]), cartesian]
            refine congrArg Except.ok (array_eq rfl (by simp [cartesian])
              (Sequence.modify_map_range _ _ _ _) fun j _ => ?_)
            rw [ControlPoints.weight_of_not_isRational cartesian, ite_self]
          · have flag : (c.isRational || w != 1) = true := by
              by_contra neither
              simp only [Bool.or_eq_true, bne_iff_ne, not_or, not_not] at neither
              exact kept ⟨Bool.not_eq_true _ ▸ neither.1, neither.2⟩
            have location : c.makeRational.points.location i = c.points.location i :=
              congrArg Prod.fst (c.points.entry_toRational inside)
            have stored := array_store_of_isRational (isRational_makeRational c) i
              (Point.homogenize (c.makeRational.points.location i) w)
            rw [array_makeRational, Point.dehomogenize_homogenize _ nonzero,
                Point.weight_homogenize, location] at stored
            rw [if_neg (by simpa using kept), flag, modify_array_entries, location]
            exact congrArg Except.ok stored

omit [Precision K] in
/-- The array and the curve agree on whether weights differ. -/
theorem weightsDiffer_array (points : 0 < c.pointCount) :
    c.array.weightsDiffer = c.points.weights.any fun w =>
      decide (Scalar.zeroTolerance * c.points.weight 0 < Scalar.abs (w - c.points.weight 0)) := by
  obtain ⟨n, hn⟩ : ∃ n, c.pointCount = n + 1 := ⟨c.pointCount - 1, by omega⟩
  have entries : c.array.entries = (c.points.location 0, c.points.weight 0)
      :: ((List.range n).map (· + 1)).map fun i => (c.points.location i, c.points.weight i) := by
    rw [array, hn, List.range_succ_eq_map]
    rfl
  have weights : c.points.weights = c.array.entries.map Prod.snd := by
    rw [array, List.map_map]
    rfl
  rw [weights, List.any_map, PointArray.weightsDiffer, entries]
  rfl

theorem write_makeNonRational [IsStrictOrderedRing K] (points : 0 < c.pointCount) :
    c.makeNonRational.map array = c.array.write .makeNonRational := by
  rw [PointArray.write, weightsDiffer_array points]
  have entries : (c.array.entries.map fun (x, _) => (x, 1))
      = (List.range c.pointCount).map fun i => (c.points.location i, (1 : K)) := by
    rw [array, List.map_map]
    rfl
  rw [entries]
  obtain ⟨dimension, order, P, knots⟩ := c
  cases P with
  | cartesian vectors =>
      -- weights that are not stored agree
      have agree : ((ControlPoints.cartesian vectors).weights.any fun w =>
          decide (Scalar.zeroTolerance * (1 : K) < Scalar.abs (w - 1))) = false := by
        refine List.any_eq_false.2 fun w hw => ?_
        obtain ⟨i, -, rfl⟩ := List.mem_map.1 hw
        have tolerance : (0 : K) ≤ Scalar.zeroTolerance := one_div_nonneg.2 (Nat.cast_nonneg _)
        show ¬decide (Scalar.zeroTolerance * (1 : K) < Scalar.abs (1 - 1)) = true
        rw [sub_self, Scalar.abs_eq, abs_zero, mul_one, decide_eq_true_eq, not_lt]
        exact tolerance
      exact (if_neg (ne_true_of_eq_false agree)).symm
  | homogeneous vectors =>
      show Except.map array (if _ then Except.error _ else Except.ok _) = _
      split
      · rfl
      · refine congrArg Except.ok (array_eq rfl rfl
          (f := fun i => (Point.dehomogenize (vectors.getD i []), 1)) ?_ fun j hj => ?_)
        · exact congrArg _ (congrArg List.range (List.length_map _).symm)
        · have inside : j < vectors.length := hj.trans_eq (List.length_map _)
          show ((vectors.map Point.dehomogenize).getD j [], (1 : K))
            = (Point.dehomogenize (vectors.getD j []), 1)
          rw [List.getD_eq_getElem _ _ (by simpa using inside), List.getElem_map,
              List.getD_eq_getElem _ _ inside]

theorem write_zeroPoints [IsStrictOrderedRing K] (c : Curve K) :
    (Except.ok c.zeroPoints).map array = c.array.write .zeroPoints := by
  have count : c.zeroPoints.pointCount = c.pointCount := (repointed_zeroPoints c).1.pointCount
  refine congrArg Except.ok (array_eq rfl (ControlPoints.isRational_withVectors _ _)
    (f := fun _ => (Point.zero c.dimension, 1)) ?_ fun j hj => ?_)
  · rw [array, List.map_map, count]
    rfl
  · obtain ⟨dimension, order, P, knots⟩ := c
    cases P with
    | cartesian vectors =>
        have inside : j < (vectors.map fun _ => (Point.zero dimension : Point K)).length := hj
        show ((vectors.map fun _ => Point.zero dimension).getD j [], (1 : K)) = _
        rw [List.getD_eq_getElem _ _ inside, List.getElem_map]
    | homogeneous vectors =>
        have inside : j < (vectors.map fun _ => Point.zero dimension ++ [(1 : K)]).length := hj
        show (Point.dehomogenize ((vectors.map fun _ => Point.zero dimension ++ [1]).getD j []),
            Point.weight ((vectors.map fun _ => Point.zero dimension ++ [1]).getD j [])) = _
        rw [List.getD_eq_getElem _ _ inside, List.getElem_map, Point.dehomogenize_concat_one,
            Point.weight, List.getLastD_concat]

/-! ## §5. Runs. -/

/-- What a write gives is what the edit leaves behind. -/
theorem Outcome.ofResult_write {result : Except (Failure K) (Curve K)} {edit : PointEdit K}
    (write : result.map array = c.array.write edit) :
    (Outcome.ofResult c result).curve.array = c.array.step edit
      ∧ (Outcome.ofResult c result).failure = c.array.refusal edit := by
  unfold PointArray.step PointArray.refusal
  rw [← write]
  cases result <;> exact ⟨rfl, rfl⟩

variable [IsStrictOrderedRing K] [Precision.Exact K] [Analytic K]

/-- **An edit of control points does to the array what the write does**, and is refused when the
write is. -/
theorem Regular.apply_pointEdit (h : c.Regular) (edit : PointEdit K) :
    (edit.toEdit.apply c).curve.array = c.array.step edit
      ∧ (edit.toEdit.apply c).failure = c.array.refusal edit := by
  have two := h.two_le_order
  have enough := h.order_le
  cases edit with
  | setLocation index x => exact Outcome.ofResult_write (write_setLocation h.positive index x)
  | setHomogeneous index p => exact Outcome.ofResult_write (write_setHomogeneous c index p)
  | setWeight index w => exact Outcome.ofResult_write (write_setWeight c index w)
  | makeRational =>
      have write : (Except.ok c.makeRational).map array = c.array.write .makeRational :=
        congrArg Except.ok (array_makeRational c)
      exact Outcome.ofResult_write write
  | makeNonRational => exact Outcome.ofResult_write (write_makeNonRational (by omega))
  | zeroPoints => exact Outcome.ofResult_write (write_zeroPoints c)

/-- The knots stay, and positive weights stay positive. -/
theorem repointed_pointEdit (sized : ∀ x ∈ c.points.vectors, x.length = c.vectorSize)
    (edit : PointEdit K) :
    Repointed c (edit.toEdit.apply c).curve
      ∧ (c.points.Positive → (edit.toEdit.apply c).curve.points.Positive) := by
  have before : Repointed c c ∧ (c.points.Positive → c.points.Positive) := ⟨.refl sized, id⟩
  cases edit with
  | setLocation index x =>
      exact Outcome.curve_ofResult (P := fun e => Repointed c e ∧ (_ → e.points.Positive)) before
        fun e ok => repointed_setLocation sized ok
  | setHomogeneous index p =>
      exact Outcome.curve_ofResult (P := fun e => Repointed c e ∧ (_ → e.points.Positive)) before
        fun e ok => repointed_setHomogeneous sized ok
  | setWeight index w =>
      exact Outcome.curve_ofResult (P := fun e => Repointed c e ∧ (_ → e.points.Positive)) before
        fun e ok => repointed_setWeight sized ok
  | makeRational => exact ⟨repointed_makeRational sized, fun positive => positive.toRational⟩
  | makeNonRational =>
      exact Outcome.curve_ofResult (P := fun e => Repointed c e ∧ (_ → e.points.Positive)) before
        fun e ok => repointed_makeNonRational sized ok
  | zeroPoints => exact ⟨(repointed_zeroPoints c).1, fun _ => (repointed_zeroPoints c).2⟩

theorem Regular.run_pointEdits (h : c.Regular) (edits : List (PointEdit K)) :
    (Edit.run c (edits.map PointEdit.toEdit)).Regular
      ∧ (Edit.run c (edits.map PointEdit.toEdit)).array = c.array.run edits := by
  induction edits generalizing c with
  | nil => exact ⟨h, rfl⟩
  | cons edit rest ih =>
      obtain ⟨repointed, positive⟩ := repointed_pointEdit h.sized edit
      obtain ⟨regular, same⟩ := ih (repointed.regular h (positive h.positive))
      refine ⟨regular, same.trans ?_⟩
      rw [(h.apply_pointEdit edit).1]
      rfl

end Curve

namespace PointArray

variable [Precision K] {s t : PointArray K} {edit : PointEdit K}

/-- What a write that is accepted makes of the flag. -/
theorem rational_of_write (ok : s.write edit = .ok t) :
    t.rational = edit.storesWeights s.rational := by
  cases edit with
  | setLocation index x =>
      obtain ⟨_, -, ok⟩ := bind_eq_ok ok
      obtain ⟨_, -, ok⟩ := bind_eq_ok ok
      cases ok
      exact (Bool.or_false _).symm
  | setHomogeneous index p =>
      obtain ⟨_, -, ok⟩ := bind_eq_ok ok
      obtain ⟨_, -, ok⟩ := bind_eq_ok ok
      obtain ⟨_, -, ok⟩ := bind_eq_ok ok
      cases ok
      rfl
  | setWeight index w =>
      obtain ⟨_, -, ok⟩ := bind_eq_ok ok
      obtain ⟨_, -, ok⟩ := bind_eq_ok ok
      cases ok
      rfl
  | makeRational =>
      cases ok
      rfl
  | makeNonRational =>
      change (if s.weightsDiffer = true then Except.error _ else Except.ok _) = _ at ok
      split at ok
      · cases ok
      · cases ok
        rfl
  | zeroPoints =>
      cases ok
      exact (Bool.or_false _).symm

/-- A write is refused and changes nothing, or it is accepted. -/
theorem step_cases (s : PointArray K) (edit : PointEdit K) :
    (s.step edit = s ∧ s.refusal edit ≠ none)
      ∨ (s.write edit = .ok (s.step edit) ∧ s.refusal edit = none) := by
  unfold step refusal
  cases s.write edit with
  | error e => exact .inl ⟨rfl, Option.some_ne_none e⟩
  | ok t => exact .inr ⟨rfl, rfl⟩

/-- A weight that is written sets the flag if it is not 1. -/
theorem rational_step_of_weight {w : K} (accepted : s.refusal edit = none)
    (writes : edit.weight? = some w) : (s.step edit).rational = (s.rational || w != 1) := by
  rcases s.step_cases edit with ⟨-, refused⟩ | ⟨ok, -⟩
  · exact absurd accepted refused
  · have flag := rational_of_write ok
    cases edit <;> cases writes <;> exact flag

/-- The flag is cleared only by dropping the weights. -/
theorem eq_makeNonRational_of_step (rational : s.rational = true)
    (cleared : (s.step edit).rational = false) :
    edit = .makeNonRational ∧ s.refusal edit = none := by
  rcases s.step_cases edit with ⟨same, -⟩ | ⟨ok, accepted⟩
  · rw [same, rational] at cleared
    cases cleared
  · have flag := rational_of_write ok
    rw [cleared, rational] at flag
    cases edit with
    | makeNonRational => exact ⟨rfl, accepted⟩
    | _ => cases flag

/-- The homogeneous form of a location and a weight writes both. -/
theorem write_homogenize [Precision.Exact K] {i : Nat} {x : Point K} {w : K}
    (inside : i < s.entries.length) (size : x.length = s.dimension) (pos : 0 < w) :
    s.write (.setHomogeneous i (Point.homogenize x w)) = .ok { s with
      rational := s.rational || w != 1
      entries := s.entries.set i (x, w) } := by
  have fits : (Point.homogenize x w).length = s.dimension + 1 := by
    rw [Point.length_homogenize, size]
  simp only [write, Point.weight_homogenize, Point.dehomogenize_homogenize x pos.ne']
  rw [checkIndex, if_pos inside, checkSize, if_pos fits, checkWeight,
      if_pos ((Scalar.isWeight_iff w).2 pos)]
  rfl

end PointArray

namespace Curve

variable {c : Curve K} [IsStrictOrderedRing K] [Precision K] [Precision.Exact K] [Analytic K]

omit [IsStrictOrderedRing K] [Precision.Exact K] in
/-- A change of control points that is refused leaves the curve as it was. -/
theorem apply_pointEdit_of_failure {edit : PointEdit K}
    (refused : (edit.toEdit.apply c).failure ≠ none) : (edit.toEdit.apply c).curve = c := by
  obtain ⟨e, failed⟩ := Option.ne_none_iff_exists'.1 refused
  cases edit with
  | setLocation | setHomogeneous | setWeight | makeNonRational =>
      exact (Outcome.of_failure failed).1
  | makeRational | zeroPoints => cases failed

/-- **Edits of control points are writes to an array of pairs.**  After any sequence of them the
locations and the weights of a valid curve are those of the array after the same writes.  The
next edit is refused exactly when the write is, and then leaves the curve as it was.  A weight
that is written makes the curve rational exactly if it is not 1, and only dropping all weights
takes that back. -/
theorem pointEdits_write_array (valid : c.isValid = true) (edits : List (PointEdit K))
    (edit : PointEdit K) :
    let before := Edit.run c (edits.map PointEdit.toEdit)
    let after := edit.toEdit.apply before
    before.points.locations = (c.array.run edits).entries.map Prod.fst
      ∧ before.points.weights = (c.array.run edits).entries.map Prod.snd
      ∧ before.array = c.array.run edits
      ∧ after.curve.array = before.array.step edit
      ∧ after.failure = before.array.refusal edit
      ∧ (after.failure ≠ none → after.curve = before)
      ∧ (∀ w, edit.weight? = some w → after.failure = none → before.isRational = false →
          (after.curve.isRational = true ↔ w ≠ 1))
      ∧ (before.isRational = true → after.curve.isRational = false →
          edit = .makeNonRational ∧ after.failure = none)
      ∧ ∀ i x w, i < before.pointCount → x.length = before.dimension → 0 < w →
          edit = .setHomogeneous i (Point.homogenize x w) →
            after.curve.array.entries = before.array.entries.set i (x, w) := by
  intro before after
  obtain ⟨regular, same⟩ := (regular_of_isValid valid).run_pointEdits edits
  obtain ⟨written, refusal⟩ := regular.apply_pointEdit edit
  have flag : after.curve.isRational = (before.array.step edit).rational :=
    congrArg PointArray.rational written
  refine ⟨?_, ?_, same, written, refusal, apply_pointEdit_of_failure, ?_, ?_, ?_⟩
  · rw [← same, array, List.map_map]
    rfl
  · rw [← same, array, List.map_map]
    rfl
  · intro w writes accepted cartesian
    have stored : before.array.rational = false := cartesian
    rw [flag, PointArray.rational_step_of_weight (refusal.symm.trans accepted) writes, stored,
        Bool.false_or, bne_iff_ne]
  · intro rational cleared
    obtain ⟨drops, accepted⟩ :=
      PointArray.eq_makeNonRational_of_step rational (flag.symm.trans cleared)
    exact ⟨drops, refusal.trans accepted⟩
  · rintro i x w inside size pos rfl
    have write := PointArray.write_homogenize (inside.trans_eq (length_array_entries before).symm)
      (s := before.array) size pos
    rw [written, PointArray.step, write]

/-- A straight edge of two points. -/
def straight : Curve ℚ where
  dimension := 1
  order := 2
  points := .cartesian [[0], [1]]
  knots := ⟨[0, 1]⟩

/-- A weight makes the edge rational, a point moves with its weight, equal weights are dropped
again, and a weight of 0 is refused. -/
theorem pointEdits_write_straight :
    let edits : List (PointEdit ℚ) :=
      [.setWeight 0 2, .setHomogeneous 1 [6, 2], .setLocation 0 [5], .makeNonRational]
    straight.isValid = true
      ∧ (Edit.run straight (edits.map PointEdit.toEdit)).points.locations = [[5], [3]]
      ∧ (Edit.run straight (edits.map PointEdit.toEdit)).points.weights = [1, 1]
      ∧ (Edit.apply (Edit.run straight (edits.map PointEdit.toEdit)) (.setWeight 1 0)).curve
        = Edit.run straight (edits.map PointEdit.toEdit) := by
  intro edits
  have valid : straight.isValid = true := by decide +kernel
  obtain ⟨locations, weights, -, -, -, refused, -⟩ :=
    pointEdits_write_array valid edits (.setWeight 1 0)
  refine ⟨valid, locations.trans (by with_unfolding_all rfl),
    weights.trans (by with_unfolding_all rfl), refused ?_⟩
  with_unfolding_all exact Option.some_ne_none _

end Curve

end RationalSpline
