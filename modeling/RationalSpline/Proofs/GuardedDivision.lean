/-
  RationalSpline.Proofs.GuardedDivision
  ─────────────────────────────────────
  NUMBERS THAT DIVIDE BY POSITIVE NUMBERS ONLY.

  A guarded number is a number or nothing.  A quotient by anything that is not positive
  is nothing, and nothing spoils every result it enters.  The algorithms are written over
  any numbers, so they run on guarded ones as they are; if such a run ends in numbers, no
  divisor on the way was zero or negative.

  The basis functions and their derivatives divide by the lengths of supports.  On a span
  whose supports have positive length, a guarded run gives what a plain run gives
  (`KnotVector.basisInPlace?_guarded`, `KnotVector.derivativeRows?_guarded`).
-/
import RationalSpline.Proofs.BasisArray
import RationalSpline.Proofs.KnotOrder

namespace RationalSpline

/-- A number, or what is left of one after a refused division. -/
structure Guarded (K : Type) where
  /-- The number. -/
  value? : Option K

namespace Guarded

variable {K : Type}

/-! ## §1. Arithmetic. -/

/-- An operation on two numbers, if both are there. -/
def both (f : K → K → Option K) (a b : Guarded K) : Guarded K :=
  ⟨a.value?.bind fun x => b.value?.bind (f x)⟩

/-- A comparison of two numbers, false unless both are there. -/
def compare (f : K → K → Bool) (a b : Guarded K) : Bool :=
  (a.value?.bind fun x => b.value?.map (f x)).getD false

/-- A number that is there. -/
def of (a : K) : Guarded K := ⟨some a⟩

variable [Field K] [LinearOrder K]

/-- Guarded numbers, with the operations of the field. -/
instance : Scalar (Guarded K) where
  add := both fun x y => some (x + y)
  sub := both fun x y => some (x - y)
  mul := both fun x y => some (x * y)
  div := both fun x y => if 0 < y then some (x / y) else none
  neg a := ⟨a.value?.map (- ·)⟩
  zero := of 0
  one := of 1
  natCast n := of n
  lt a b := compare (fun x y => decide (x < y)) a b = true
  le a b := compare (fun x y => decide (x ≤ y)) a b = true
  beq := compare fun x y => decide (x = y)
  decLt _ _ := inferInstanceAs (Decidable (_ = true))
  decLe _ _ := inferInstanceAs (Decidable (_ = true))

@[simp] theorem of_add (a b : K) : of a + of b = of (a + b) := rfl

@[simp] theorem of_sub (a b : K) : of a - of b = of (a - b) := rfl

@[simp] theorem of_mul (a b : K) : of a * of b = of (a * b) := rfl

@[simp] theorem of_neg (a : K) : -of a = of (-a) := rfl

theorem zero_eq : (0 : Guarded K) = of 0 := rfl

theorem natCast_eq (n : Nat) : (n : Guarded K) = of (n : K) := rfl

/-- A quotient is there exactly if the divisor is positive. -/
theorem of_div_of (a b : K) : of a / of b = if 0 < b then of (a / b) else ⟨none⟩ := by
  show Guarded.mk (if 0 < b then some (a / b) else none) = _
  rw [apply_ite Guarded.mk]
  rfl

theorem of_div (a : K) {b : K} (pos : 0 < b) : of a / of b = of (a / b) := by
  rw [of_div_of, if_pos pos]

/-- Reading behind the end of a list gives 0 in both. -/
theorem getD_map_of (values : List K) (k : Nat) :
    (values.map of).getD k 0 = of (values.getD k 0) := by
  rw [zero_eq, List.getD_map]

end Guarded

/-! ## §2. Basis functions. -/

namespace KnotVector

open Guarded

variable {K : Type} [Field K] [LinearOrder K] {U : KnotVector K} {i p : Nat} {u : K}

/-- The supports of all functions of degree below `p` on a span have positive length. -/
def Supported (U : KnotVector K) (i p : Nat) (u : K) : Prop :=
  ∀ j ≤ p, ∀ r < j, 0 < U.support i u j r

theorem Supported.mono {q : Nat} (h : U.Supported i p u) (le : q ≤ p) : U.Supported i q u :=
  fun j hj => h j (hj.trans le)

/-- On knots in order every span that is not empty has supports around it. -/
theorem Ordered.supported [IsStrictOrderedRing K] (h : U.Ordered) (size : i + p < U.size)
    (span : U.knot i < U.knot (i + 1)) (u : K) : U.Supported i p u := by
  intro j hj r hr
  have low : U.knot (i + 1 - (j - r)) ≤ U.knot i := h.knot_le (by omega) (by omega)
  have high : U.knot (i + 1) ≤ U.knot (i + (r + 1)) := h.knot_le (by omega) (by omega)
  rw [support, above, below]
  linarith

theorem knot_guarded (U : KnotVector K) (k : Nat) : (U.map of).knot k = of (U.knot k) :=
  getD_map_of U.values k

theorem below_guarded (U : KnotVector K) (i : Nat) (u : K) (m : Nat) :
    (U.map of).below i (of u) m = of (U.below i u m) := by
  rw [below, below, knot_guarded, of_sub]

theorem above_guarded (U : KnotVector K) (i : Nat) (u : K) (m : Nat) :
    (U.map of).above i (of u) m = of (U.above i u m) := by
  rw [above, above, knot_guarded, of_sub]

theorem support_guarded (U : KnotVector K) (i : Nat) (u : K) (j r : Nat) :
    (U.map of).support i (of u) j r = of (U.support i u j r) := by
  rw [support, support, above_guarded, below_guarded, of_add]

/-- One column of the triangular scheme divides by the supports of its places. -/
theorem raiseRow_guarded {j : Nat} (saved : K) {r : Nat} {row : List K}
    (pos : ∀ k < row.length, 0 < U.support i u j (r + k)) :
    (U.map of).raiseRow i (of u) j (of saved) r (row.map of)
      = (U.raiseRow i u j saved r row).map of := by
  -- the share that is passed on is a number again, so it can start the rest of the row
  induction row generalizing saved r with
  | nil => rfl
  | cons b bs ih =>
      have first : 0 < U.support i u j r := pos 0 (Nat.succ_pos _)
      have rest : ∀ k < bs.length, 0 < U.support i u j (r + 1 + k) := fun k hk => by
        have later := pos (k + 1) (Nat.succ_lt_succ hk)
        rwa [show r + (k + 1) = r + 1 + k by omega] at later
      rw [List.map_cons, raiseRow, raiseRow, support_guarded, of_div b first, above_guarded,
          below_guarded, of_mul, of_mul, of_add, ih _ rest, List.map_cons]

theorem basisRow_guarded (h : U.Supported i p u) :
    (U.map of).basisRow i (of u) p = (U.basisRow i u p).map of := by
  induction p with
  | zero => rfl
  | succ p ih =>
      rw [basisRow, basisRow, ih (h.mono (Nat.le_succ p)), zero_eq]
      refine raiseRow_guarded 0 fun k hk => ?_
      rw [length_basisRow] at hk
      exact h (p + 1) le_rfl (0 + k) (by omega)

/-! ## §3. Derivatives. -/

theorem nextDifference_guarded {r k : Nat} {c : List K} {q : Nat}
    (pos : 0 < U.support i u (p - k) q) :
    (U.map of).nextDifference i (of u) p r k (c.map of) q
      = of (U.nextDifference i u p r k c q) := by
  unfold nextDifference
  rw [support_guarded, getD_map_of, getD_map_of, of_neg, of_sub]
  split_ifs
  · exact of_div _ pos
  · exact of_div _ pos
  · exact of_div _ pos
  · rfl

theorem differences_guarded (h : U.Supported i p u) (r k : Nat) :
    (U.map of).differences i (of u) p r k = (U.differences i u p r k).map of := by
  induction k with
  | zero =>
      rw [differences, differences, List.map_map]
      refine List.map_congr_left fun q _ => ?_
      rw [Function.comp_apply, apply_ite of]
      rfl
  | succ k ih =>
      rw [differences, differences, ih, List.map_map]
      refine List.map_congr_left fun q hq => ?_
      exact nextDifference_guarded (h (p - k) (by omega) q (List.mem_range.1 hq))

theorem shares_guarded (c row : List K) (r k n : Nat) :
    shares (c.map of) (row.map of) r k n = of (shares c row r k n) := by
  unfold shares
  induction n with
  | zero =>
      rw [List.range_zero, List.foldl_nil, List.foldl_nil, apply_ite of, getD_map_of, getD_map_of,
          of_mul]
      rfl
  | succ n ih =>
      rw [List.range_succ, List.foldl_append, List.foldl_append, ih, List.foldl_cons,
          List.foldl_cons, List.foldl_nil, List.foldl_nil, apply_ite of, getD_map_of, getD_map_of,
          of_mul, of_add]

theorem derivativeRow_guarded (h : U.Supported i p u) (k : Nat) :
    (U.map of).derivativeRow i (of u) p k = (U.derivativeRow i u p k).map of := by
  have reduced : ∀ r, (U.map of).reducedDerivative i (of u) p k r
      = of (U.reducedDerivative i u p k r) := by
    intro r
    unfold reducedDerivative
    rw [differences_guarded h, basisRow_guarded (h.mono (Nat.sub_le p k)), shares_guarded,
        apply_ite of]
    rfl
  unfold derivativeRow
  split_ifs
  · exact basisRow_guarded h
  · rw [List.map_map]
    refine List.map_congr_left fun r _ => ?_
    rw [reduced, natCast_eq, of_mul]
    rfl

/-! ## §4. Checked results. -/

/-- **No basis function is divided by anything but a positive number.** -/
theorem basisInPlace?_guarded (h : U.Supported i p u) (words : U.size ≤ countLimit) :
    (U.map of).basisInPlace? i p (of u) = (U.basisInPlace? i p u).map (List.map of) := by
  -- the same knots are missing, so either both runs are there or none is
  have there : (U.map of).hasBasis i p = U.hasBasis i p := by
    rw [hasBasis, hasBasis, size_map]
  rw [basisInPlace?_eq _ _ _ _ (by rwa [size_map]), basisInPlace?_eq _ _ _ _ words, basis?, basis?,
      there, basisRow_guarded h, apply_ite (Option.map (List.map of))]
  rfl

/-- **Neither is any derivative in the table of derivatives.** -/
theorem derivativeRows?_guarded (h : U.Supported i p u) (hp : p ≤ i + 1) (size : i + p < U.size)
    (words : U.size ≤ countLimit) (count : Nat) :
    (U.map of).derivativeRows? i p (of u) count
      = (U.derivativeRows? i p u count).map (List.map (List.map of)) := by
  by_cases room : p < storageLimit ∧ count < storageLimit
  · obtain ⟨small, rows⟩ := room
    have size' : i + p < (U.map of).size := by rwa [size_map]
    have words' : (U.map of).size ≤ countLimit := by rwa [size_map]
    -- a factor too large for its word stops both, after the same divisions
    by_cases fit : FactorsFit Word.signed? p count
    · rw [derivativeRows?, derivativeRows?,
          derivativeRowsIn?_eq_some hp size' words' small rows fit,
          derivativeRowsIn?_eq_some hp size words small rows fit, derivativeRows, derivativeRows,
          Option.map_some, List.map_map]
      exact congrArg some (List.map_congr_left fun k _ => derivativeRow_guarded h k)
    · rw [derivativeRows?_eq_none hp size' words' small rows fit,
          derivativeRows?_eq_none hp size words small rows fit]
      rfl
  · rw [derivativeRows?, derivativeRows?, derivativeRowsIn?, derivativeRowsIn?, if_neg room,
        if_neg room]
    rfl

end KnotVector

end RationalSpline
