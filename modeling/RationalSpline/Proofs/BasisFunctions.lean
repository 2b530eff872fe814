/-
  RationalSpline.Proofs.BasisFunctions
  ────────────────────────────────────
  THE ROW IS THE COX–DE BOOR BASIS.

  On one span each Cox–de Boor function is a polynomial, its piece there.  The pieces of
  all degrees satisfy the recurrence of the functions, with polynomials for the distances,
  and only `p + 1` pieces of degree `p` are not zero.  The triangular scheme computes just
  these: the share that an entry passes on is the left summand of the recurrence, the rest
  the right one.

  So the row holds the values of the pieces at every parameter, in the span or not, and
  the array and the table that are filled in place hold the row.
-/
import RationalSpline.Proofs.BasisArray
import RationalSpline.Proofs.DefinedDerivatives
import RationalSpline.Proofs.Evaluation

open Polynomial

namespace RationalSpline.KnotVector

variable {K : Type} [Field K] [LinearOrder K] {U : KnotVector K} {i p : Nat} {u : K}

/-! ## §1. Pieces of the Cox–de Boor functions. -/

/-- The piece on the span `i` of the Cox–de Boor function of degree `p` and index `j`. -/
noncomputable def coxDeBoorPiece (U : KnotVector K) (i : Nat) : Nat → Nat → K[X]
  | 0, j => if j = i then 1 else 0
  | p + 1, j =>
      C (U.knot (j + p + 1) - U.knot j)⁻¹ * (X - C (U.knot j)) * coxDeBoorPiece U i p j
        + C (U.knot (j + p + 2) - U.knot (j + 1))⁻¹ * (C (U.knot (j + p + 2)) - X)
          * coxDeBoorPiece U i p (j + 1)

theorem eval_coxDeBoorPiece_succ (U : KnotVector K) (i p j : Nat) (u : K) :
    (U.coxDeBoorPiece i (p + 1) j).eval u
      = (u - U.knot j) / (U.knot (j + p + 1) - U.knot j) * (U.coxDeBoorPiece i p j).eval u
        + (U.knot (j + p + 2) - u) / (U.knot (j + p + 2) - U.knot (j + 1))
          * (U.coxDeBoorPiece i p (j + 1)).eval u := by
  simp only [coxDeBoorPiece, eval_add, eval_mul, eval_sub, eval_C, eval_X]
  ring

theorem natDegree_coxDeBoorPiece_le (U : KnotVector K) (i p j : Nat) :
    (U.coxDeBoorPiece i p j).natDegree ≤ p := by
  induction p generalizing j with
  | zero =>
      rw [coxDeBoorPiece]
      split
      · exact natDegree_one.le
      · exact natDegree_zero.le
  | succ p ih =>
      have line : ∀ a b : K, (C a * (X - C b)).natDegree ≤ 1 := fun a b =>
        (natDegree_C_mul_le _ _).trans (natDegree_X_sub_C_le b)
      have line' : ∀ a b : K, (C a * (C b - X)).natDegree ≤ 1 := fun a b => by
        rw [← neg_sub, mul_neg, natDegree_neg]
        exact line a b
      rw [coxDeBoorPiece]
      refine natDegree_add_le_of_degree_le ?_ ?_
      · exact (natDegree_mul_le_of_le (line _ _) (ih j)).trans_eq (Nat.add_comm 1 p)
      · exact (natDegree_mul_le_of_le (line' _ _) (ih (j + 1))).trans_eq (Nat.add_comm 1 p)

/-- The pieces away from the span are zero. -/
theorem coxDeBoorPiece_eq_zero {j : Nat} (out : j + p < i ∨ i < j) :
    U.coxDeBoorPiece i p j = 0 := by
  induction p generalizing j with
  | zero => exact if_neg (by omega)
  | succ p ih => rw [coxDeBoorPiece, ih (by omega), ih (by omega), mul_zero, mul_zero, add_zero]

/-- On its span the function is its piece. -/
theorem eval_coxDeBoorPiece {finish t : K} {m : Nat} (h : U.SpanOnly finish t i m) {j : Nat}
    (hj : j + p ≤ m) : (U.coxDeBoorPiece i p j).eval t = U.coxDeBoor finish t p j := by
  -- the functions count a quotient by 0 as 0, which division in the field does as well
  have quotient : ∀ a b : K, portion a b = a / b := fun a b => by
    by_cases zero : b = 0
    · simp [portion, zero]
    · simp [portion, zero]
  induction p generalizing j with
  | zero =>
      rw [coxDeBoorPiece, coxDeBoor, h j (by omega)]
      by_cases same : j = i
      · simp [same]
      · simp [same]
  | succ p ih =>
      rw [eval_coxDeBoorPiece_succ, coxDeBoor, quotient, quotient, ih (by omega), ih (by omega)]

/-- There is no other polynomial that the function is on its span. -/
theorem eq_coxDeBoorPiece [IsStrictOrderedRing K] (ordered : U.Ordered)
    (span : U.knot i < U.knot (i + 1)) {j : Nat} (size : i + 1 < U.size) (hj : j + p + 1 < U.size)
    {q : K[X]} (agree : ∀ t, U.knot i < t → t < U.knot (i + 1) →
      q.eval t = U.coxDeBoor (U.knot (i + 1)) t p j) : q = U.coxDeBoorPiece i p j := by
  -- a span that is not empty holds infinitely many parameters
  refine Polynomial.eq_of_infinite_eval_eq _ _ ((Set.Ioo_infinite span).mono ?_)
  rintro t ⟨low, high⟩
  have on : U.onSpan (U.knot (i + 1)) t i = true := onSpan_iff.2 (.inl ⟨low.le, high, high⟩)
  have only := ordered.spanOnly (m := max i (j + p)) on (le_max_left _ _) (by omega)
  exact (agree t low high).trans (eval_coxDeBoorPiece only (le_max_right _ _)).symm

/-! ## §2. The triangular scheme. -/

theorem support_eq (U : KnotVector K) (i : Nat) (u : K) (j r : Nat) :
    U.support i u j r = U.knot (i + r + 1) - U.knot (i + 1 - (j - r)) := by
  rw [support, above, below, ← add_assoc]
  ring

/-- **Each entry is the value of its piece.** -/
theorem getD_basisRow (hp : p ≤ i) (u : K) {r : Nat} (hr : r ≤ p) :
    (U.basisRow i u p).getD r 0 = (U.coxDeBoorPiece i p (i - p + r)).eval u := by
  induction p generalizing r with
  | zero =>
      obtain rfl : r = 0 := by omega
      simp [basisRow, coxDeBoorPiece]
  | succ p ih =>
      -- what an entry has from the one before is the left summand
      have left : U.passed i u (p + 1) 0 0 (U.basisRow i u p) r
          = (u - U.knot (i - (p + 1) + r))
              / (U.knot (i - (p + 1) + r + p + 1) - U.knot (i - (p + 1) + r))
            * (U.coxDeBoorPiece i p (i - (p + 1) + r)).eval u := by
        cases r with
        | zero => rw [coxDeBoorPiece_eq_zero (by omega), eval_zero, mul_zero, passed]
        | succ m =>
            rw [passed, ih (by omega) (show m ≤ p by omega), support_eq, below,
                show i + 1 - (p + 1 - (0 + m)) = i - p + m by omega,
                show i - (p + 1) + (m + 1) = i - p + m by omega,
                show i + (0 + m) + 1 = i - p + m + p + 1 by omega]
            ring
      have right : ∀ (_ : r ≤ p), U.above i u (0 + r + 1)
            * ((U.basisRow i u p).getD r 0 / U.support i u (p + 1) (0 + r))
          = (U.knot (i - (p + 1) + r + p + 2) - u)
              / (U.knot (i - (p + 1) + r + p + 2) - U.knot (i - (p + 1) + r + 1))
            * (U.coxDeBoorPiece i p (i - (p + 1) + r + 1)).eval u := by
        intro inside
        rw [ih (by omega) inside, support_eq, above,
            show i + 1 - (p + 1 - (0 + r)) = i - (p + 1) + r + 1 by omega,
            show i + (0 + r) + 1 = i - (p + 1) + r + p + 2 by omega,
            show i + (0 + r + 1) = i - (p + 1) + r + p + 2 by omega,
            show i - p + r = i - (p + 1) + r + 1 by omega]
        ring
      rw [basisRow, eval_coxDeBoorPiece_succ, ← left]
      have length : (U.basisRow i u p).length = p + 1 := U.length_basisRow i u p
      rcases Nat.lt_or_eq_of_le hr with inside | rfl
      · rw [U.getD_raiseRow _ _ _ _ _ _ (by omega), right (by omega)]
      · -- the last entry is all that is passed on
        have last := U.getD_raiseRow_length i u (p + 1) 0 0 (U.basisRow i u p)
        rw [length] at last
        rw [last, coxDeBoorPiece_eq_zero (j := i - (p + 1) + (p + 1) + 1) (by omega), eval_zero,
            mul_zero, add_zero]

/-- A row by its entries. -/
theorem basisRow_eq_map_getD (U : KnotVector K) (i : Nat) (u : K) (p : Nat) :
    U.basisRow i u p = (List.range (p + 1)).map fun r => (U.basisRow i u p).getD r 0 := by
  refine List.ext_getElem (by simp) fun r hr _ => ?_
  rw [List.getElem_map, List.getElem_range, List.getD_eq_getElem _ _ hr]

theorem basisRow_eq_map (hp : p ≤ i) (u : K) :
    U.basisRow i u p
      = (List.range (p + 1)).map fun r => (U.coxDeBoorPiece i p (i - p + r)).eval u := by
  rw [basisRow_eq_map_getD]
  refine List.map_congr_left fun r hr => ?_
  exact getD_basisRow hp u (Nat.le_of_lt_succ (List.mem_range.1 hr))

/-! ## §3. Sum and sign. -/

/-- The entries of a row add up to one, at every parameter. -/
theorem sum_basisRow_eq_one (hp : p ≤ i)
    (apart : ∀ r ≤ i, ∀ s, i < s → s ≤ i + p → U.knot r ≠ U.knot s) (u : K) :
    (U.basisRow i u p).sum = 1 := by
  -- the sum of the row with the form that is 1 everywhere
  have total := sum_basisRow (u := u) hp apart (PolarForm.const (1 : K))
  rw [basisRow_eq_map_getD]
  refine Eq.trans ?_ total
  simp only [PolarForm.const, smul_eq_mul, mul_one]
  rfl

variable [IsStrictOrderedRing K]

/-- Going up one degree keeps the entries from being negative where the distances are not. -/
theorem nonneg_of_mem_raiseRow {j r : Nat} {saved : K} {row : List K} (hs : 0 ≤ saved)
    (hrow : ∀ b ∈ row, 0 ≤ b)
    (hdist : ∀ k < row.length, 0 ≤ U.above i u (r + k + 1) ∧ 0 ≤ U.below i u (j - (r + k))) :
    ∀ b ∈ U.raiseRow i u j saved r row, 0 ≤ b := by
  induction row generalizing saved r with
  | nil =>
      intro b hb
      rwa [List.mem_singleton.1 hb]
  | cons x xs ih =>
      -- what the first entry passes on is not negative, so it can start the rest
      obtain ⟨above, below⟩ := hdist 0 (Nat.succ_pos _)
      have share : 0 ≤ x / U.support i u j r :=
        div_nonneg (hrow x List.mem_cons_self) (add_nonneg above below)
      have rest : ∀ b ∈ U.raiseRow i u j (U.below i u (j - r) * (x / U.support i u j r)) (r + 1) xs,
          0 ≤ b := by
        refine ih (mul_nonneg below share) (fun b hb => hrow b (List.mem_cons_of_mem _ hb))
          fun k hk => ?_
        have later := hdist (k + 1) (Nat.succ_lt_succ hk)
        rwa [show r + (k + 1) = r + 1 + k by omega] at later
      intro b hb
      rcases List.mem_cons.1 hb with rfl | hb
      · exact add_nonneg hs (mul_nonneg above share)
      · exact rest b hb

/-- On the closed span no entry is negative. -/
theorem Ordered.nonneg_of_mem_basisRow (h : U.Ordered) (size : i + p < U.size)
    (low : U.knot i ≤ u) (high : u ≤ U.knot (i + 1)) : ∀ b ∈ U.basisRow i u p, 0 ≤ b := by
  induction p with
  | zero =>
      intro b hb
      rw [List.mem_singleton.1 hb]
      exact zero_le_one
  | succ p ih =>
      refine nonneg_of_mem_raiseRow le_rfl (ih (by omega)) fun k hk => ?_
      rw [length_basisRow] at hk
      have above : U.knot (i + 1) ≤ U.knot (i + (0 + k + 1)) := h.knot_le (by omega) (by omega)
      have below : U.knot (i + 1 - (p + 1 - (0 + k))) ≤ U.knot i := h.knot_le (by omega) (by omega)
      exact ⟨sub_nonneg.2 (high.trans above), sub_nonneg.2 (below.trans low)⟩

/-! ## §4. The array and the table. -/

omit [IsStrictOrderedRing K] in
theorem head?_derivativeRows (U : KnotVector K) (i : Nat) (u : K) (p count : Nat) :
    (U.derivativeRows i u p count).head? = some (U.basisRow i u p) := by
  rw [derivativeRows, List.head?_map, List.head?_range]
  rfl

omit [IsStrictOrderedRing K] in
/-- The first row of the table of derivatives is the row of basis functions. -/
theorem head?_of_derivativeRows? (hp : p ≤ i + 1) (size : i + p < U.size)
    (words : U.size ≤ countLimit) {count : Nat} {rows : List (List K)}
    (table : U.derivativeRows? i p u count = some rows) : rows.head? = some (U.basisRow i u p) := by
  by_cases room : p < storageLimit ∧ count < storageLimit
  · obtain ⟨small, enough⟩ := room
    by_cases fit : FactorsFit Word.signed? p count
    · rw [derivativeRows?, derivativeRowsIn?_eq_some hp size words small enough fit] at table
      rw [← Option.some.inj table, head?_derivativeRows]
    · rw [derivativeRows?_eq_none hp size words small enough fit] at table
      cases table
  · rw [derivativeRows?, derivativeRowsIn?, if_neg room] at table
    cases table

/-- The factors of low degrees fit, and there are none without derivatives. -/
theorem factorsFit_of_low {count : Nat} (low : p ≤ 20 ∨ count = 0) :
    FactorsFit Word.signed? p count := by
  intro k above below
  rcases low with low | rfl
  · rw [fallingFactorial_eq]
    exact Word.signed?_natCast (descFactorial_lt_of_le low _)
  · omega

/-- **The basis functions are the B-spline basis.**  The array that grows in place holds them, and
so does the first row of the table of derivatives, which is there if the factors of the
derivatives fit their words. -/
theorem basisFunctions_are_pieces (order : U.isNonDecreasing = true)
    (span : U.knot i < U.knot (i + 1)) (hp : p ≤ i) (hi : i + p + 2 ≤ U.size) :
    (∀ r ≤ p, (U.coxDeBoorPiece i p (i - p + r)).natDegree ≤ p
      ∧ (∀ finish t, U.onSpan finish t i = true →
        (U.coxDeBoorPiece i p (i - p + r)).eval t = U.coxDeBoor finish t p (i - p + r))
      ∧ ∀ q : K[X], (∀ t, U.knot i < t → t < U.knot (i + 1) →
          q.eval t = U.coxDeBoor (U.knot (i + 1)) t p (i - p + r)) →
        q = U.coxDeBoorPiece i p (i - p + r))
    ∧ ∀ u, ∃ row,
      row = ((List.range (p + 1)).map fun r => (U.coxDeBoorPiece i p (i - p + r)).eval u)
        ∧ row.sum = 1
        ∧ (U.knot i ≤ u → u ≤ U.knot (i + 1) → ∀ b ∈ row, 0 ≤ b)
        ∧ U.basis? i p u = some row
        ∧ (U.size ≤ countLimit → U.basisInPlace? i p u = some row
          ∧ ∀ count,
            (∀ rows, U.derivativeRows? i p u count = some rows → rows.head? = some row)
              ∧ (p ≤ 20 ∨ count = 0 → FactorsFit Word.signed? p count)
              ∧ (p < storageLimit → count < storageLimit →
                (∃ rows, U.derivativeRowsIn? some i p u count = some rows
                    ∧ rows.head? = some row)
                  ∧ (FactorsFit Word.signed? p count →
                    ∃ rows, U.derivativeRows? i p u count = some rows))) := by
  have ordered := (isNonDecreasing_iff U).1 order
  have apart : ∀ r ≤ i, ∀ s, i < s → s ≤ i + p → U.knot r ≠ U.knot s := fun r hr s hs hs' =>
    ne_of_lt (lt_of_le_of_lt (ordered.knot_le hr (by omega))
      (lt_of_lt_of_le span (ordered.knot_le hs (by omega))))
  have there : U.hasBasis i p = true := decide_eq_true (.inr ⟨by omega, by omega⟩)
  refine ⟨fun r hr => ⟨U.natDegree_coxDeBoorPiece_le i p _, fun finish t on => ?_, fun q agree =>
    eq_coxDeBoorPiece ordered span (by omega) (by omega) agree⟩, fun u =>
    ⟨U.basisRow i u p, basisRow_eq_map hp u, sum_basisRow_eq_one hp apart u,
      fun low high => ordered.nonneg_of_mem_basisRow (by omega) low high, if_pos there,
      fun words => ⟨exists_basisArray there words, fun count =>
        ⟨fun rows => head?_of_derivativeRows? (by omega) (by omega) words, factorsFit_of_low,
          fun small room => ⟨?_, fun fit => ?_⟩⟩⟩⟩⟩
  · exact eval_coxDeBoorPiece (ordered.spanOnly (m := i + p) on (by omega) (by omega)) (by omega)
  · have unbounded : FactorsFit some p count := fun _ _ _ => rfl
    exact ⟨_, derivativeRowsIn?_eq_some (by omega) (by omega) words small room unbounded,
      U.head?_derivativeRows i u p count⟩
  · exact ⟨_, derivativeRowsIn?_eq_some (by omega) (by omega) words small room fit⟩

/-- Beyond a span between a double and a single knot, where one entry is negative. -/
theorem basisFunctions_doubleKnot :
    let U : KnotVector ℚ := ⟨[0, 1, 2, 2, 3, 5, 6]⟩
    U.isNonDecreasing = true ∧ U.knot 3 < U.knot 4 ∧ U.basis? 3 2 4 = some [1, -4 / 3, 4 / 3]
      ∧ ([1, -4 / 3, 4 / 3] : List ℚ).sum = 1 := by
  intro U
  have order : U.isNonDecreasing = true := by decide +kernel
  have span : U.knot 3 < U.knot 4 := by decide +kernel
  obtain ⟨row, -, sum, -, values, -⟩ :=
    (basisFunctions_are_pieces (p := 2) order span (by decide) (by decide)).2 4
  have found : U.basis? 3 2 4 = some [1, -4 / 3, 4 / 3] := by decide +kernel
  obtain rfl : [1, -4 / 3, 4 / 3] = row := Option.some.inj (found.symm.trans values)
  exact ⟨order, span, found, sum⟩

end RationalSpline.KnotVector
