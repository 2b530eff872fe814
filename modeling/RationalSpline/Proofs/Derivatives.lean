/-
  RationalSpline.Proofs.Derivatives
  ─────────────────────────────────
  DERIVATIVES ARE THE DERIVATIVES.

  A derivative of a piece is a slope of its polar form, taken once for each order.  The
  coefficients of the basis functions are such slopes: a difference over the length of a
  support is the slope between the two knots at its ends, since two neighbouring
  stretches of knots differ in these two only.  So the sums over the places are the values of
  the slope at consecutive knots, and the basis functions of the lower degree make its value
  at equal arguments of them.

  The quotient of a rational curve solves the product rule for the highest derivative.
-/
import RationalSpline.Proofs.DefinedDerivatives
import RationalSpline.Proofs.PolarDerivative
import RationalSpline.Proofs.ElevatedForm
import RationalSpline.Proofs.Evaluation

open Polynomial

namespace RationalSpline

variable {K : Type} [Field K] [LinearOrder K]

/-! ## §1. Basis functions. -/

namespace KnotVector

variable {U : KnotVector K} {i p : Nat} {u : K}

/-- Only the places `r - k, …, r` carry a coefficient. -/
theorem getD_differences_eq_zero (U : KnotVector K) (i : Nat) (u : K) (p r k : Nat) {q : Nat}
    (out : q + k < r ∨ r < q) : (U.differences i u p r k).getD q 0 = 0 := by
  rcases Nat.lt_or_ge q (p + 1 - k) with inside | beyond
  · cases k with
    | zero =>
        have other : q ≠ r := by omega
        have room : q < p + 1 := inside
        simp [differences, List.getD_eq_getElem?_getD, room, other]
    | succ k =>
        rw [getD_differences_succ U i u (by omega), nextDifference, if_neg (by omega),
            if_neg (by omega), if_neg (by omega)]
  · rw [List.getD_eq_default _ _ (by simpa using beyond)]

/-- Where the neighbours count as zero, every coefficient is a difference. -/
theorem getD_differences (U : KnotVector K) (i : Nat) (u : K) {r k q : Nat}
    (inside : q + (k + 1) ≤ p) :
    (U.differences i u p r (k + 1)).getD q 0
      = ((U.differences i u p r k).getD (q + 1) 0 - (U.differences i u p r k).getD q 0)
        / U.support i u (p - k) q := by
  rw [getD_differences_succ U i u inside, nextDifference]
  split_ifs with first last between
  · rw [getD_differences_eq_zero U i u p r k (q := q) (by omega), sub_zero]
  · rw [getD_differences_eq_zero U i u p r k (q := q + 1) (by omega), zero_sub]
  · rfl
  · rw [getD_differences_eq_zero U i u p r k (q := q + 1) (by omega),
        getD_differences_eq_zero U i u p r k (q := q) (by omega), sub_zero, zero_div]

/-- The sum that skips the places without a coefficient is the sum over all. -/
theorem shares_eq_sum {c row : List K} {r k : Nat}
    (vanish : ∀ q, q + k < r ∨ r < q → c.getD q 0 = 0) (n : Nat) :
    shares c row r k n = ∑ q ∈ Finset.range n, c.getD q 0 * row.getD q 0
      + if n + k ≤ r then c.getD (r - k) 0 * row.getD (r - k) 0 else 0 := by
  -- the first place `r - k` begins the sum, so until `n` has passed it, it is counted ahead
  induction n with
  | zero => simp [shares]
  | succ n ih =>
      rw [shares_succ, Finset.sum_range_succ]
      split_ifs with guard more more
      · omega
      · rw [ih, if_neg (by omega), add_zero, add_zero]
      · rw [ih, if_pos (by omega), vanish n (by omega), zero_mul, add_zero]
      · rcases Nat.lt_trichotomy (n + k) r with below | at_ | above
        · omega
        · rw [ih, if_pos (by omega), show r - k = n by omega, add_zero]
        · rw [ih, if_neg (by omega), vanish n (by omega), zero_mul, add_zero, add_zero]

/-- A derivative of a basis function as a combination of basis functions of lower degree. -/
theorem getD_derivativeRow (U : KnotVector K) (i : Nat) (u : K) {n k r : Nat} (hr : r ≤ n + k) :
    (U.derivativeRow i u (n + k) k).getD r 0
      = ((n + k).descFactorial k : K)
        * ∑ q ∈ Finset.range (n + 1), (U.basisRow i u n).getD q 0
            * (U.differences i u (n + k) r k).getD q 0 := by
  rcases Nat.eq_zero_or_pos k with rfl | pos
  · have single : ∀ q ∈ Finset.range (n + 1), q ≠ r → (U.basisRow i u n).getD q 0
        * (U.differences i u (n + 0) r 0).getD q 0 = 0 := fun q _ other => by
      rw [getD_differences_eq_zero U i u _ r 0 (by omega), mul_zero]
    rw [Finset.sum_eq_single r single fun out => absurd (Finset.mem_range.2 (by omega)) out,
        getD_differences_zero U i u hr]
    simp [derivativeRow]
  · have reduced : U.reducedDerivative i u (n + k) k r
        = ∑ q ∈ Finset.range (n + 1), (U.basisRow i u n).getD q 0
            * (U.differences i u (n + k) r k).getD q 0 := by
      rw [reducedDerivative, if_pos (by omega), Nat.add_sub_cancel,
          shares_eq_sum (fun q => getD_differences_eq_zero U i u (n + k) r k), if_neg (by omega),
          add_zero]
      exact Finset.sum_congr rfl fun q _ => mul_comm _ _
    rw [← reduced, derivativeRow, if_neg (by omega)]
    simp only [List.getD_eq_getElem?_getD, List.getElem?_map,
      List.getElem?_range (show r < n + k + 1 by omega), Option.map_some, Option.getD_some]
    rw [fallingFactorial_eq, mul_comm]

variable {V : Type} [AddCommGroup V] [Module K V]

/-- **The coefficients of an order weigh the values of a form at the stretches of a span to the
values of its slope there.** -/
theorem sum_differences {n k : Nat} (hp : n + k ≤ i)
    (apart : ∀ r ≤ i, ∀ s, i < s → s ≤ i + (n + k) → U.knot r ≠ U.knot s)
    {f : Multiset K → V} (affine : PolarForm.Affine (n + k) f) {q : Nat} (hq : q ≤ n) :
    ∑ r ∈ Finset.range (n + k + 1), (U.differences i u (n + k) r k).getD q 0
        • f (stretch U.knot (i - (n + k) + r + 1) (n + k))
      = (PolarForm.slope^[k] f) (stretch U.knot (i - n + q + 1) n) := by
  obtain ⟨p, same⟩ : ∃ p, p = n + k := ⟨_, rfl⟩
  rw [← same] at hp apart affine ⊢
  -- a coefficient of the next order is a difference of two of this order over the length of a
  -- support, so the sum is a difference of two sums of this order, at neighbouring stretches
  induction k generalizing n q with
  | zero =>
      obtain rfl : p = n := same
      rw [Finset.sum_eq_single q]
      · simp [differences, List.getD_eq_getElem?_getD, Nat.lt_succ_of_le hq]
      · intro r _ other
        rw [getD_differences_eq_zero U i u p r 0 (by omega), zero_smul]
      · intro out
        exact absurd (Finset.mem_range.2 (Nat.lt_succ_of_le hq)) out
  | succ k ih =>
      have low := ih (n := n + 1) (q := q) (by omega) (by omega)
      have high := ih (n := n + 1) (q := q + 1) (by omega) (by omega)
      -- the two stretches share all knots but the two ends of a support
      have ends : U.support i u (p - k) q = U.knot (i + q + 1) - U.knot (i - n + q) := by
        rw [support, above, below, show i + (q + 1) = i + q + 1 by omega,
            show i + 1 - (p - k - q) = i - n + q by omega]
        ring
      have width : U.knot (i + q + 1) - U.knot (i - n + q) ≠ 0 :=
        sub_ne_zero.2 (apart _ (by omega) _ (by omega) (by omega)).symm
      rw [show i - (n + 1) + q + 1 = i - n + q by omega, stretch_succ] at low
      rw [show i - (n + 1) + (q + 1) + 1 = i - n + q + 1 by omega, stretch_succ_right,
          show i - n + q + 1 + n = i + q + 1 by omega] at high
      have slope : PolarForm.Affine (n + 1) (PolarForm.slope^[k] f) := by
        refine PolarForm.Affine.iterate_slope (k := k) ?_
        rwa [show n + 1 + k = p by omega]
      have between := slope.sub_eq (card_stretch U.knot (i - n + q + 1) n) (U.knot (i - n + q))
        (U.knot (i + q + 1))
      rw [← low, ← high, ← Finset.sum_sub_distrib] at between
      rw [Function.iterate_succ_apply', ← inv_smul_smul₀ width (PolarForm.slope _ _), ← between,
          Finset.smul_sum]
      refine Finset.sum_congr rfl fun r _ => ?_
      rw [getD_differences U i u (by omega), ends, ← sub_smul, smul_smul, div_eq_inv_mul]

/-- **The derivatives of the basis functions make the slope of a form at equal arguments of its
values at the stretches.** -/
theorem sum_derivativeRow {n k : Nat} (hp : n + k ≤ i)
    (apart : ∀ r ≤ i, ∀ s, i < s → s ≤ i + (n + k) → U.knot r ≠ U.knot s)
    (f : PolarForm K V (n + k)) :
    ∑ r ∈ Finset.range (n + k + 1), (U.derivativeRow i u (n + k) k).getD r 0
        • f (stretch U.knot (i - (n + k) + r + 1) (n + k))
      = ((n + k).descFactorial k : K) • (PolarForm.slope^[k] f) (Multiset.replicate n u) := by
  have affine : PolarForm.Affine (n + k) f := f.affine
  have value : ∑ q ∈ Finset.range (n + 1), (U.basisRow i u n).getD q 0
        • (PolarForm.slope^[k] f) (stretch U.knot (i - n + q + 1) n)
      = (PolarForm.slope^[k] f) (Multiset.replicate n u) :=
    sum_basisRow (show n ≤ i by omega) (fun r hr s hs hs' => apart r hr s hs (by omega))
      ⟨_, affine.iterate_slope⟩
  have entry : ∀ r ∈ Finset.range (n + k + 1), (U.derivativeRow i u (n + k) k).getD r 0
      = ((n + k).descFactorial k : K)
        * ∑ q ∈ Finset.range (n + 1), (U.basisRow i u n).getD q 0
            * (U.differences i u (n + k) r k).getD q 0 := by
    intro r hr
    exact getD_derivativeRow U i u (Nat.lt_succ_iff.1 (Finset.mem_range.1 hr))
  -- the differences sum to slopes at the stretches of degree `n`, the basis functions to the value
  calc ∑ r ∈ Finset.range (n + k + 1), (U.derivativeRow i u (n + k) k).getD r 0
          • f (stretch U.knot (i - (n + k) + r + 1) (n + k))
      = ((n + k).descFactorial k : K) • ∑ r ∈ Finset.range (n + k + 1),
          ∑ q ∈ Finset.range (n + 1), ((U.basisRow i u n).getD q 0
            * (U.differences i u (n + k) r k).getD q 0)
              • f (stretch U.knot (i - (n + k) + r + 1) (n + k)) := by
        rw [Finset.smul_sum]
        refine Finset.sum_congr rfl fun r hr => ?_
        rw [entry r hr, mul_smul, Finset.sum_smul]
    _ = ((n + k).descFactorial k : K) • ∑ q ∈ Finset.range (n + 1),
          (U.basisRow i u n).getD q 0 • ∑ r ∈ Finset.range (n + k + 1),
            (U.differences i u (n + k) r k).getD q 0
              • f (stretch U.knot (i - (n + k) + r + 1) (n + k)) := by
        rw [Finset.sum_comm]
        simp only [Finset.smul_sum, mul_smul]
    _ = ((n + k).descFactorial k : K) • ∑ q ∈ Finset.range (n + 1),
          (U.basisRow i u n).getD q 0
            • (PolarForm.slope^[k] f) (stretch U.knot (i - n + q + 1) n) := by
        congr 1
        refine Finset.sum_congr rfl fun q hq => ?_
        rw [sum_differences hp apart affine (Nat.lt_succ_iff.1 (Finset.mem_range.1 hq))]
    _ = ((n + k).descFactorial k : K) • (PolarForm.slope^[k] f) (Multiset.replicate n u) := by
        rw [value]

end KnotVector

/-! ## §2. Quotients. -/

section Quotient

theorem Point.getD_sub {x y : Point K} {m : Nat} (hx : m < x.length) (hy : m < y.length) :
    (Point.sub x y).getD m 0 = x.getD m 0 - y.getD m 0 := by
  simp [Point.sub, List.getD_eq_getElem?_getD, hx, hy]

theorem Point.getD_scale (x : Point K) (a : K) (m : Nat) :
    (Point.scale x a).getD m 0 = x.getD m 0 * a := by
  rcases Nat.lt_or_ge m x.length with inside | beyond
  · simp [Point.scale, List.getD_eq_getElem?_getD, inside]
  · rw [List.getD_eq_default _ _ (by simpa using beyond), List.getD_eq_default _ _ beyond, zero_mul]

theorem Point.getD_divide (x : Point K) (a : K) (m : Nat) :
    (Point.divide x a).getD m 0 = x.getD m 0 / a := by
  rcases Nat.lt_or_ge m x.length with inside | beyond
  · simp [Point.divide, List.getD_eq_getElem?_getD, inside]
  · rw [List.getD_eq_default _ _ (by simpa using beyond), List.getD_eq_default _ _ beyond, zero_div]

namespace Curve

variable {numerator : List (Point K)} {weight : List K} {d k m : Nat}

/-- What the product rule leaves of the numerator, in one coordinate. -/
theorem getD_remainder (length : k < numerator.length) (sized : ∀ v ∈ numerator, v.length = d)
    (hm : m < d) {i : Nat} (hi : i ≤ k) :
    (remainder numerator weight k i).getD m 0
      = (numerator.getD k []).getD m 0
        - ∑ l ∈ Finset.range i, (k.choose (l + 1) : K) * weight.getD (l + 1) 0
            * ((lowerQuotients numerator weight k).getD (k - (l + 1)) []).getD m 0 := by
  have lower := sized_lowerQuotients weight sized length.le
  induction i with
  | zero => simp [remainder]
  | succ i ih =>
      have inside : k - (i + 1) < (lowerQuotients numerator weight k).length := by
        rw [length_lowerQuotients]
        omega
      rw [remainder_succ, Point.getD_sub, ih (by omega), Point.getD_scale, getD_binomialRow hi,
          Finset.sum_range_succ]
      · ring
      · rwa [length_remainder length sized lower (by omega)]
      · rw [Point.length_scale, List.getD_eq_getElem _ _ inside, lower _ (List.getElem_mem inside)]
        exact hm

/-- Later derivatives leave the earlier ones alone. -/
theorem getD_lowerQuotients {n : Nat} (h : k < n) :
    (lowerQuotients numerator weight n).getD k []
      = Point.divide (remainder numerator weight k k) (weight.getD 0 0) := by
  induction n with
  | zero => omega
  | succ n ih =>
      rw [lowerQuotients_succ]
      rcases Nat.lt_or_ge k n with before | last
      · rw [List.getD_append _ _ _ _ (by rwa [length_lowerQuotients]), ih before]
      · obtain rfl : k = n := by omega
        rw [List.getD_append_right _ _ _ _ (length_lowerQuotients _ _ k).le, length_lowerQuotients,
            Nat.sub_self]
        rfl

/-- **The quotient solves the product rule.** -/
theorem product_rule {count : Nat} (length : numerator.length = count + 1)
    (sized : ∀ v ∈ numerator, v.length = d) (nonzero : weight.getD 0 0 ≠ 0) (hk : k ≤ count)
    (hm : m < d) :
    ∑ i ∈ Finset.range (k + 1), (k.choose i : K) * weight.getD i 0
        * ((quotientDerivatives numerator weight count).getD (k - i) []).getD m 0
      = (numerator.getD k []).getD m 0 := by
  -- the summand of the highest derivative is what the others leave of the numerator
  have entry : ∀ j ≤ count, (quotientDerivatives numerator weight count).getD j []
      = Point.divide (remainder numerator weight j j) (weight.getD 0 0) := fun j hj =>
    getD_lowerQuotients (n := count + 1) (Nat.lt_succ_of_le hj)
  have earlier : ∀ l ∈ Finset.range k, (k.choose (l + 1) : K) * weight.getD (l + 1) 0
        * ((quotientDerivatives numerator weight count).getD (k - (l + 1)) []).getD m 0
      = (k.choose (l + 1) : K) * weight.getD (l + 1) 0
        * ((lowerQuotients numerator weight k).getD (k - (l + 1)) []).getD m 0 := by
    intro l hl
    have inside := Finset.mem_range.1 hl
    rw [entry _ (by omega), getD_lowerQuotients (by omega)]
  rw [Finset.sum_range_succ', Finset.sum_congr rfl earlier, Nat.sub_zero, entry k hk,
      Point.getD_divide, getD_remainder (by omega) sized hm le_rfl, Nat.choose_zero_right,
      Nat.cast_one, one_mul, mul_div_cancel₀ _ nonzero]
  ring

end Curve

end Quotient

/-! ## §3. Pieces as polynomials. -/

namespace Curve

variable {c : Curve K} {d p : Nat} {t : K}

/-- The polynomials `q`, one for each coordinate of a stored vector, are the piece of the curve
on the span `i`. -/
def IsPiece (c : Curve K) (i : Nat) (q : Nat → K[X]) : Prop :=
  ∀ s, c.spline.knots.knot i < s → s < c.spline.knots.knot (i + 1) →
    ∀ m < c.vectorSize, (q m).eval s = (c.definedVector s).getD m 0

/-- The polynomial in one coordinate of a form. -/
noncomputable def coordinatePiece (f : PolarForm K (Fin d → K) p) (m : Nat) : K[X] :=
  PolarForm.diagonal p fun s => (Point.ofVec (f s)).getD m 0

theorem getD_ofVec (v : Fin d → K) {m : Nat} (h : m < d) :
    (Point.ofVec v).getD m 0 = v ⟨m, h⟩ := by
  simp [Point.ofVec, List.getD_eq_getElem?_getD, h]

/-- **A derivative of a coordinate is a slope of the form.** -/
theorem eval_iterate_derivative_coordinatePiece {n k : Nat} (f : PolarForm K (Fin d → K) (n + k))
    {m : Nat} (hm : m < d) (t : K) :
    (derivative^[k] (coordinatePiece f m)).eval t
      = ((n + k).descFactorial k : K)
        * (PolarForm.slope^[k] f) (Multiset.replicate n t) ⟨m, hm⟩ := by
  have affine : PolarForm.Affine (n + k) fun s => f s ⟨m, hm⟩ := (f.coordinate ⟨m, hm⟩).affine
  have coordinate : (fun s => (Point.ofVec (f s)).getD m 0) = fun s => f s ⟨m, hm⟩ :=
    funext fun s => getD_ofVec (f s) hm
  rw [coordinatePiece, coordinate, PolarForm.iterate_derivative_diagonal, eval_mul,
      affine.iterate_slope.eval_diagonal, PolarForm.iterate_slope_coordinate]
  simp

section Search

variable [IsStrictOrderedRing K]

/-- The form on a span is its piece. -/
theorem Sound.isPiece (h : c.Sound) (hd : c.vectorSize = d) (hp : c.degree = p)
    {F : Pieces K d p} (follows : Follows c.spline.knots c.points.vectors F) {i : Nat}
    (hpi : p ≤ i) (hi : i < c.pointCount) {t' : K} (low : c.spline.knots.knot i < t')
    (high : t' < c.spline.knots.knot (i + 1)) :
    c.IsPiece i (coordinatePiece (F t')) := by
  intro s above below m hm
  have ordered := h.ordered_padded
  have size : c.spline.knots.size = c.pointCount + c.degree + 1 := size_padded_knots h
  have inside : s < c.domain.2 := by
    rw [h.domain_finish]
    exact lt_of_lt_of_le below (ordered.knot_le (by omega) (by omega))
  have on : c.spline.knots.onSpan c.domain.2 s i = true :=
    KnotVector.onSpan_iff.2 (.inl ⟨above.le, below, inside⟩)
  subst hd
  rw [h.definedVector_eq rfl hp follows hpi hi on low high, getD_ofVec _ hm]
  have value := eval_iterate_derivative_coordinatePiece (n := p) (k := 0) (F t') hm s
  simpa using value

/-- On a span that is not empty there is one piece. -/
theorem IsPiece.unique {i : Nat} {q q' : Nat → K[X]} (h : c.IsPiece i q) (h' : c.IsPiece i q')
    (span : c.spline.knots.knot i < c.spline.knots.knot (i + 1)) {m : Nat}
    (hm : m < c.vectorSize) : q m = q' m := by
  refine Polynomial.eq_of_infinite_eval_eq _ _ ((Set.Ioo_infinite span).mono ?_)
  rintro s ⟨low, high⟩
  exact (h s low high m hm).trans (h' s low high m hm).symm

variable [Precision K] [Precision.Exact K]

/-- **The derivatives of the stored vectors are those of the piece on the span that is
picked.** -/
theorem Regular.getD_vectorDerivatives (h : c.Regular) (hd : c.vectorSize = d)
    (hp : c.degree = p) {F : Pieces K d p} (follows : Follows c.spline.knots c.points.vectors F)
    {t' : K} (low : c.spline.knots.knot (c.spline.spanAt t) < t')
    (high : t' < c.spline.knots.knot (c.spline.spanAt t + 1)) {count k : Nat} (hk : k ≤ count) :
    (c.vectorDerivatives t count).getD k []
      = Point.ofVec fun m : Fin d => (derivative^[k] (coordinatePiece (F t') m)).eval t := by
  subst hp
  obtain ⟨hi, hi', -, -⟩ := h.spanAt_spec t
  have apart := h.apart_of_lt hi' (lt_trans low high)
  have entry : (c.vectorDerivatives t count).getD k []
      = c.spline.derivative d (c.spline.spanAt t) t k := by
    simp [vectorDerivatives, Spline.derivatives, hd, List.getD_eq_getElem?_getD,
      Nat.lt_succ_of_le hk]
  rw [entry, Spline.derivative]
  -- up to the degree it is a slope of the form, above it there is nothing left to derive
  split_ifs with up
  · obtain ⟨n, degree⟩ : ∃ n, c.degree = n + k := ⟨c.degree - k, (Nat.sub_add_cancel up).symm⟩
    have window := window_eq_form follows hi hi' low high
    have row : (c.spline.knots.derivativeRow (c.spline.spanAt t) t c.degree k).length
        = c.degree + 1 := KnotVector.length_derivativeRow _ _ _ _ _
    show Point.combine d (c.spline.knots.derivativeRow _ t c.degree k) _ = _
    rw [window, combine_range row]
    congr 1
    generalize F t' = f at *
    generalize c.degree = p at *
    subst degree
    rw [KnotVector.sum_derivativeRow hi apart]
    funext m
    rw [eval_iterate_derivative_coordinatePiece f m.isLt t]
    rfl
  · rw [Point.zero_eq_ofVec]
    congr 1
    funext m
    have above : c.degree < k := not_le.1 up
    have degree : (coordinatePiece (F t') m).natDegree < k :=
      lt_of_le_of_lt (PolarForm.natDegree_diagonal_le _ _) above
    rw [iterate_derivative_eq_zero degree, eval_zero]
    rfl

/-! ## §4. Derivatives of curves. -/

/-- The derivatives of the stored vectors at `t` are those of the polynomials `q`. -/
def HasDerivatives (c : Curve K) (t : K) (count : Nat) (q : Nat → K[X]) : Prop :=
  ∀ k ≤ count, ∀ m < c.vectorSize,
    ((c.vectorDerivatives t count).getD k []).getD m 0 = (derivative^[k] (q m)).eval t

/-- **The span that is picked has a piece, and the stored vectors have its derivatives.** -/
theorem Regular.exists_piece (h : c.Regular) (t : K) :
    ∃ q, c.IsPiece (c.spline.spanAt t) q
      ∧ (∀ q', c.IsPiece (c.spline.spanAt t) q' → ∀ m < c.vectorSize, q' m = q m)
      ∧ ∀ count, c.HasDerivatives t count q := by
  obtain ⟨hi, hi', span, -⟩ := h.spanAt_spec t
  obtain ⟨F, follows⟩ := h.toSound.exists_follows rfl rfl
  obtain ⟨t', low, high⟩ := exists_between span
  have piece := h.toSound.isPiece rfl rfl follows hi hi' low high
  refine ⟨coordinatePiece (F t'), piece, ?_, ?_⟩
  · intro q' other m hm
    exact other.unique piece span hm
  · intro count k hk m hm
    rw [h.getD_vectorDerivatives rfl rfl follows low high hk, getD_ofVec _ hm]

omit [IsStrictOrderedRing K] [Precision.Exact K] in
/-- A polynomial curve has the derivatives of its stored vectors, coordinate by coordinate. -/
theorem Measured.getD_derivatives_of_polynomial (h : c.Measured) (polynomial : c.isRational = false)
    {count k : Nat} {q : Nat → K[X]} (values : c.HasDerivatives t count q) (hk : k ≤ count) :
    (c.derivatives t count).getD k []
      = (List.range c.dimension).map fun m => (derivative^[k] (q m)).eval t := by
  have size : c.vectorSize = c.dimension := by simp [vectorSize, polynomial]
  have inside : k < (c.vectorDerivatives t count).length := by
    simpa [vectorDerivatives] using Nat.lt_succ_of_le hk
  have sized : ((c.vectorDerivatives t count).getD k []).length = c.vectorSize := by
    rw [List.getD_eq_getElem _ _ inside]
    exact h.length_of_mem_vectorDerivatives t count _ (List.getElem_mem inside)
  rw [derivatives_of_polynomial polynomial]
  refine List.ext_getElem ?_ fun m hm _ => ?_
  · rw [sized, size, List.length_map, List.length_range]
  · have value := values k hk m (by omega)
    rw [List.getD_eq_getElem _ _ hm] at value
    rw [value, List.getElem_map, List.getElem_range]

omit [IsStrictOrderedRing K] [Precision.Exact K] in
/-- Above the degree the derivatives of a polynomial curve are zero, as vectors. -/
theorem getD_derivatives_eq_zero (polynomial : c.isRational = false) (t : K) {count k : Nat}
    (hk : k ≤ count) (above : c.degree < k) :
    (c.derivatives t count).getD k [] = Point.zero c.dimension := by
  have size : c.vectorSize = c.dimension := by simp [vectorSize, polynomial]
  have beyond : ¬k ≤ c.spline.degree := Nat.not_le.2 above
  simp [derivatives_of_polynomial polynomial, vectorDerivatives, Spline.derivatives,
    Spline.derivative, List.getD_eq_getElem?_getD, Nat.lt_succ_of_le hk, beyond, size]

omit [IsStrictOrderedRing K] [Precision.Exact K] in
/-- **The derivatives of a rational curve satisfy the product rule of weight times location.** -/
theorem Measured.product_rule (h : c.Measured) (rational : c.isRational = true) {count k m : Nat}
    {q : Nat → K[X]} (values : c.HasDerivatives t count q)
    (nonzero : (q c.dimension).eval t ≠ 0) (hk : k ≤ count) (hm : m < c.dimension) :
    ∑ i ∈ Finset.range (k + 1), (k.choose i : K) * (derivative^[i] (q c.dimension)).eval t
        * ((c.derivatives t count).getD (k - i) []).getD m 0
      = (derivative^[k] (q m)).eval t := by
  have size : c.vectorSize = c.dimension + 1 := if_pos rational
  have length : (c.vectorDerivatives t count).length = count + 1 :=
    Spline.length_derivatives _ _ _ _
  have numerator : (((c.vectorDerivatives t count).map (·.take c.dimension)).getD k []).getD m 0
      = (derivative^[k] (q m)).eval t := by
    rw [← values k hk m (by omega)]
    simp [List.getD_eq_getElem?_getD, length, Nat.lt_succ_of_le hk, hm]
  have weight : ∀ i ≤ count, ((c.vectorDerivatives t count).map (·.getD c.dimension 0)).getD i 0
      = (derivative^[i] (q c.dimension)).eval t := by
    intro i hi
    rw [← values i hi c.dimension (by omega)]
    simp [List.getD_eq_getElem?_getD, length, Nat.lt_succ_of_le hi]
  have nonzero' : ((c.vectorDerivatives t count).map (·.getD c.dimension 0)).getD 0 0 ≠ 0 := by
    rw [weight 0 (Nat.zero_le _)]
    exact nonzero
  rw [derivatives_of_rational rational, ← numerator,
      ← Curve.product_rule (by simp [length]) (h.length_of_mem_numerators rational t count)
        nonzero' hk hm]
  refine Finset.sum_congr rfl fun i hi => ?_
  have inside := Finset.mem_range.1 hi
  rw [weight i (by omega)]

/-- **Derivatives are the derivatives.**  Near `t` the curve is the piece of the span that is
picked, whose polynomials `q` are determined.  The derivatives of a polynomial curve are theirs;
those of a rational one satisfy the product rule of weight times location.  The table gives all
of them when its factors are not bounded. -/
theorem derivatives_of_piece (valid : c.isValid = true) (t : K) (count : Nat) :
    ∃ q : Nat → K[X], c.IsPiece (c.spline.spanAt t) q
      ∧ (∀ q', c.IsPiece (c.spline.spanAt t) q' → ∀ m < c.vectorSize, q' m = q m)
      ∧ (c.derivatives t count).length = count + 1
      ∧ (∀ v ∈ c.derivatives t count, v.length = c.dimension)
      ∧ (c.isRational = false →
        (c.derivatives t count).getD 0 [] = c.pointAt t
          ∧ ∀ k ≤ count,
            (c.derivatives t count).getD k []
              = (List.range c.dimension).map (fun m => (derivative^[k] (q m)).eval t)
            ∧ (c.degree < k → (c.derivatives t count).getD k [] = Point.zero c.dimension))
      ∧ (c.isRational = true → (q c.dimension).eval t ≠ 0 → ∀ k ≤ count, ∀ m < c.dimension,
        ∑ i ∈ Finset.range (k + 1), (k.choose i : K) * (derivative^[i] (q c.dimension)).eval t
            * ((c.derivatives t count).getD (k - i) []).getD m 0
          = (derivative^[k] (q m)).eval t)
      ∧ (c.knotCount + 2 < storageLimit → count < storageLimit →
        c.derivativesIn? some t count = some (c.derivatives t count)) := by
  have measured := measured_of_isValid valid
  obtain ⟨q, piece, unique, values⟩ := (regular_of_isValid valid).exists_piece t
  refine ⟨q, piece, unique, length_derivatives c t count,
    measured.length_of_mem_derivatives t count, ?_, ?_, ?_⟩
  · intro polynomial
    refine ⟨?_, fun k hk => ⟨?_, getD_derivatives_eq_zero polynomial t hk⟩⟩
    · rw [derivatives_of_polynomial polynomial, getD_vectorDerivatives_zero, pointAt, polynomial]
      rfl
    · exact measured.getD_derivatives_of_polynomial polynomial (values count) hk
  · intro rational nonzero k hk m hm
    exact measured.product_rule rational (values count) nonzero hk hm
  · intro room rows
    -- a factor that is not bounded always fits
    exact measured.derivativesIn?_eq_some room rows (fun _ _ _ => rfl) t

end Search

/-- A polynomial of degree 2, in three control points. -/
def parabola : Curve ℚ where
  dimension := 1
  order := 3
  points := .cartesian [[0], [0], [1]]
  knots := ⟨[0, 0, 1, 1]⟩

/-- The quotient `t / (1 + t)`. -/
def slowing : Curve ℚ where
  dimension := 1
  order := 2
  points := .homogeneous [[0, 1], [1, 2]]
  knots := ⟨[0, 1]⟩

/-- The square has the derivatives 2 and 2 at 1, and no others; the quotient has the derivative
4/9 at 1/2, by the product rule. -/
theorem derivatives_of_piece_parabola_slowing :
    parabola.isValid = true ∧ slowing.isValid = true
      ∧ (∃ q, parabola.IsPiece (parabola.spline.spanAt 1) q ∧ (q 0).eval 1 = 1
        ∧ (derivative (q 0)).eval 1 = 2 ∧ (derivative^[2] (q 0)).eval 1 = 2
        ∧ (derivative^[3] (q 0)).eval 1 = 0)
      ∧ ∃ q, slowing.IsPiece (slowing.spline.spanAt (1 / 2)) q ∧ (q 1).eval (1 / 2) = 3 / 2
        ∧ (q 1).eval (1 / 2) * (4 / 9) + (derivative (q 1)).eval (1 / 2) * (1 / 3)
          = (derivative (q 0)).eval (1 / 2) := by
  have valid : parabola.isValid = true := by decide +kernel
  have valid' : slowing.isValid = true := by decide +kernel
  refine ⟨valid, valid', ?_, ?_⟩
  · obtain ⟨q, piece, -, -, -, polynomial, -⟩ := derivatives_of_piece valid 1 3
    have values : parabola.derivatives 1 3 = [[1], [2], [2], [0]] := by decide +kernel
    obtain ⟨-, entry⟩ := polynomial rfl
    have order : ∀ k ≤ 3, [(derivative^[k] (q 0)).eval 1]
        = ([[1], [2], [2], [0]] : List (Point ℚ)).getD k [] := fun k hk => by
      rw [← values, (entry k hk).1]
      rfl
    exact ⟨q, piece, List.singleton_inj.1 (order 0 (by decide)),
      List.singleton_inj.1 (order 1 (by decide)), List.singleton_inj.1 (order 2 (by decide)),
      List.singleton_inj.1 (order 3 le_rfl)⟩
  · obtain ⟨q, piece, -, -, -, -, rational, -⟩ := derivatives_of_piece valid' (1 / 2) 1
    have values : slowing.derivatives (1 / 2) 1 = [[1 / 3], [4 / 9]] := by decide +kernel
    have weight : (q 1).eval (1 / 2) = 3 / 2 := by
      rw [piece (1 / 2) (by decide +kernel) (by decide +kernel) 1 (by decide)]
      decide +kernel
    have rule := rational rfl (by rw [show slowing.dimension = 1 from rfl, weight]; norm_num) 1
      le_rfl 0 (by decide)
    rw [values, show slowing.dimension = 1 from rfl] at rule
    refine ⟨q, piece, weight, ?_⟩
    simpa [Finset.sum_range_succ] using rule

end Curve

end RationalSpline
