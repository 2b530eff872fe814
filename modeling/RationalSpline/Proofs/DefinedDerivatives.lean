/-
  RationalSpline.Proofs.DefinedDerivatives
  ────────────────────────────────────────
  WHERE A CURVE HAS DERIVATIVES.

  On a valid curve no index of the evaluation leaves its list and no two vectors differ
  in size, whatever the parameter and the number of derivatives.  What can leave its word
  is the factor of the basis functions, which for the degree `p` and `d` derivatives goes
  through `p·(p-1)⋯(p-d)`: the last of these products is computed and never used.  So the
  derivatives of degrees up to 20 are all there, and those of higher degrees are not,
  from the 18th on.
-/
import RationalSpline.Proofs.DerivativeTable
import RationalSpline.Proofs.Sound
import RationalSpline.Curve.Evaluation

namespace RationalSpline

/-! ## §1. The factors of a degree. -/

namespace KnotVector

theorem descFactorial_mono {p a b : Nat} (le : a ≤ b) (hb : b ≤ p) :
    p.descFactorial a ≤ p.descFactorial b := by
  induction b, le using Nat.le_induction with
  | base => exact le_rfl
  | succ b le ih =>
      rw [Nat.descFactorial_succ]
      exact (ih (by omega)).trans (Nat.le_mul_of_pos_left _ (by omega))

/-- One product decides whether all of them fit: those before are no larger, and those
after the degree vanish. -/
theorem factorsFit_iff {p : Nat} (pos : 1 ≤ p) (small : p < Word.signedLimit) (count : Nat) :
    FactorsFit Word.signed? p (min count p)
      ↔ p.descFactorial (min (count + 1) p) < Word.signedLimit := by
  have limit : Word.signedLimit = 9223372036854775808 := rfl
  constructor
  -- the last product is the largest; without any, the degree itself fits
  · intro fit
    rcases Nat.lt_or_ge (min (count + 1) p) 2 with one | two
    · rw [show min (count + 1) p = 1 by omega, Nat.descFactorial_one]
      exact small
    · by_contra large
      have last := fit (min (count + 1) p - 1) (by omega) (by omega)
      rw [fallingFactorial_eq, show min (count + 1) p - 1 + 1 = min (count + 1) p by omega,
          Word.signed?_eq_none (Nat.le_of_not_lt large)] at last
      exact absurd last (by simp)
  · intro last k low high
    rw [fallingFactorial_eq]
    refine Word.signed?_natCast ?_
    rcases Nat.lt_or_ge p (k + 1) with above | below
    · rw [Nat.descFactorial_of_lt above]
      omega
    · exact lt_of_le_of_lt (descFactorial_mono (by omega) (by omega)) last

theorem descFactorial_lt_of_le {p : Nat} (h : p ≤ 20) (k : Nat) :
    p.descFactorial k < Word.signedLimit := by
  rcases Nat.lt_or_ge p k with above | below
  · rw [Nat.descFactorial_of_lt above]
    decide
  · calc p.descFactorial k ≤ p.descFactorial p := descFactorial_mono below le_rfl
      _ = p.factorial := Nat.descFactorial_self p
      _ ≤ Nat.factorial 20 := Nat.factorial_le h
      _ < Word.signedLimit := by decide

theorem le_descFactorial {p k : Nat} (h : 21 ≤ p) (hk : 19 ≤ k) (le : k ≤ p) :
    Word.signedLimit ≤ p.descFactorial k :=
  calc Word.signedLimit ≤ Nat.descFactorial 21 19 := by decide
    _ ≤ p.descFactorial 19 := Nat.descFactorial_le 19 h
    _ ≤ p.descFactorial k := descFactorial_mono hk le

end KnotVector

/-- A check that every entry passes gives the list of results. -/
theorem Sequence.mapM_eq_some {β γ : Type} {f : β → Option γ} {g : β → γ} {values : List β}
    (h : ∀ x ∈ values, f x = some (g x)) : values.mapM f = some (values.map g) := by
  induction values with
  | nil => rfl
  | cons x xs ih =>
      rw [List.mapM_cons, h x List.mem_cons_self, ih fun y hy => h y (List.mem_cons_of_mem _ hy)]
      rfl

/-- One more point of a combination. -/
theorem Point.combine_take_succ {α : Type} [Scalar α] (dimension : Nat) {coefficients : List α}
    {points : List (Point α)} {n : Nat} (hc : n < coefficients.length) (hp : n < points.length) :
    Point.combine dimension (coefficients.take (n + 1)) (points.take (n + 1))
      = Point.add (Point.combine dimension (coefficients.take n) (points.take n))
        (Point.scale (points.getD n []) (coefficients.getD n 0)) := by
  have inside : n < (coefficients.zip points).length := by
    rw [List.length_zip]
    omega
  have taken : ∀ m, (coefficients.take m).zip (points.take m)
      = (coefficients.zip points).take m := fun _ => List.take_zipWith.symm
  rw [Point.combine, Point.combine, taken, taken,
      List.take_succ_eq_append_getElem inside, List.foldl_append, List.getElem_zip,
      List.getD_eq_getElem _ _ hc, List.getD_eq_getElem _ _ hp]
  rfl

namespace Curve

/-! ## §2. The quotient. -/

section Quotient

variable {α : Type} [Scalar α] {numerator : List (Point α)} {weight : List α} {d k : Nat}

/-- The derivatives of orders below `k`. -/
def lowerQuotients (numerator : List (Point α)) (weight : List α) : Nat → List (Point α)
  | 0 => []
  | k + 1 => quotientDerivatives numerator weight k

/-- What the product rule leaves of the numerator after the summands before the `i`-th. -/
def remainder (numerator : List (Point α)) (weight : List α) (k i : Nat) : Point α :=
  let row : List α := binomialRow k
  (List.range i).foldl
    (fun rest i =>
      Point.sub rest
        (Point.scale ((lowerQuotients numerator weight k).getD (k - (i + 1)) [])
          (row.getD (i + 1) 0 * weight.getD (i + 1) 0)))
    (numerator.getD k [])

theorem remainder_succ (numerator : List (Point α)) (weight : List α) (k i : Nat) :
    remainder numerator weight k (i + 1)
      = Point.sub (remainder numerator weight k i)
        (Point.scale ((lowerQuotients numerator weight k).getD (k - (i + 1)) [])
          ((binomialRow k : List α).getD (i + 1) 0 * weight.getD (i + 1) 0)) := by
  rw [remainder, List.range_succ, List.foldl_append]
  rfl

theorem lowerQuotients_succ (numerator : List (Point α)) (weight : List α) (k : Nat) :
    lowerQuotients numerator weight (k + 1)
      = lowerQuotients numerator weight k
        ++ [Point.divide (remainder numerator weight k k) (weight.getD 0 0)] := by
  cases k with
  | zero => rfl
  | succ k =>
      rw [lowerQuotients, quotientDerivatives]
      simp only [remainder, lowerQuotients, Nat.add_sub_add_right]

theorem length_lowerQuotients (numerator : List (Point α)) (weight : List α) (k : Nat) :
    (lowerQuotients numerator weight k).length = k := by
  induction k with
  | zero => rfl
  | succ k ih => rw [lowerQuotients_succ, List.length_append, ih, List.length_singleton]

/-- Numerators of one size have remainders of that size. -/
theorem length_remainder (length : k < numerator.length) (sized : ∀ v ∈ numerator, v.length = d)
    (lower : ∀ v ∈ lowerQuotients numerator weight k, v.length = d) {i : Nat} (hi : i ≤ k) :
    (remainder numerator weight k i).length = d := by
  induction i with
  | zero =>
      show (numerator.getD k []).length = d
      rw [List.getD_eq_getElem _ _ length]
      exact sized _ (List.getElem_mem length)
  | succ i ih =>
      have inside : k - (i + 1) < (lowerQuotients numerator weight k).length := by
        rw [length_lowerQuotients]
        omega
      rw [remainder_succ, Point.length_sub, Point.length_scale, ih (by omega),
          List.getD_eq_getElem _ _ inside, lower _ (List.getElem_mem inside), min_self]

theorem sized_lowerQuotients (weight : List α) (sized : ∀ v ∈ numerator, v.length = d) {k : Nat}
    (hk : k ≤ numerator.length) : ∀ v ∈ lowerQuotients numerator weight k, v.length = d := by
  induction k with
  | zero => simp [lowerQuotients]
  | succ k ih =>
      intro v hv
      rw [lowerQuotients_succ] at hv
      rcases List.mem_append.1 hv with before | last
      · exact ih (by omega) v before
      · rw [List.mem_singleton.1 last, Point.length_divide,
            length_remainder (by omega) sized (ih (by omega)) le_rfl]

/-- **One more derivative of the quotient.** -/
theorem addQuotient?_eq (length : k < numerator.length) (weights : weight.length = numerator.length)
    (word : numerator.length < countLimit) (sized : ∀ v ∈ numerator, v.length = d) :
    addQuotient? numerator weight (lowerQuotients numerator weight k) k
      = some (lowerQuotients numerator weight (k + 1)) := by
  have lower := sized_lowerQuotients weight sized length.le
  obtain ⟨rest, run, whole⟩ := exists_foldlM
    (subtractSummand? weight (lowerQuotients numerator weight k) k (binomialRow k)) 1 k
    (fun i rest => rest = remainder numerator weight k (i - 1)) (s := numerator.getD k []) rfl (by
      rintro i rest low high rfl
      obtain ⟨i, rfl⟩ : ∃ m, i = m + 1 := ⟨i - 1, by omega⟩
      have index : Word.unsigned? ((k : Int) - (i + 1 : Nat)) = some (k - (i + 1)) :=
        Word.unsigned?_eq (by omega) (by omega)
      have inside : k - (i + 1) < (lowerQuotients numerator weight k).length := by
        rw [length_lowerQuotients]
        omega
      have sizes : (remainder numerator weight k i).length
          = ((lowerQuotients numerator weight k).getD (k - (i + 1)) []).length := by
        rw [length_remainder length sized lower (by omega), List.getD_eq_getElem _ _ inside,
            lower _ (List.getElem_mem inside)]
      refine ⟨remainder numerator weight k (i + 1), ?_, rfl⟩
      rw [subtractSummand?, Sequence.item?_eq rfl (show i + 1 < weight.length by omega) 0]
      simp only [Option.bind_eq_bind, Option.bind_some]
      rw [index, Option.bind_some, Sequence.item?_eq rfl inside [], Option.bind_some,
          Nat.add_sub_cancel, Point.sub?, if_pos (by rw [Point.length_scale, sizes]),
          remainder_succ])
  rw [Nat.add_sub_cancel_left] at whole
  rw [addQuotient?, Sequence.item?_eq rfl length []]
  simp only [Option.bind_eq_bind, Option.bind_some, run]
  rw [Sequence.item?_eq (i := 0) (k := 0) rfl (by omega) 0, lowerQuotients_succ, whole]
  rfl

/-- **All derivatives of the quotient**, of numerators of one size. -/
theorem foldlM_addQuotient? (count : Nat) (length : numerator.length = count + 1)
    (weights : weight.length = count + 1) (word : count + 1 < countLimit)
    (sized : ∀ v ∈ numerator, v.length = d) :
    (List.range' 0 (count + 1)).foldlM (addQuotient? numerator weight) []
      = some (quotientDerivatives numerator weight count) := by
  obtain ⟨ders, run, whole⟩ := exists_foldlM (addQuotient? numerator weight) 0 (count + 1)
    (fun k lower => lower = lowerQuotients numerator weight k) (s := []) rfl (by
      rintro k lower - hk rfl
      exact ⟨_, addQuotient?_eq (by omega) (by omega) (by omega) sized, rfl⟩)
  rw [run, whole, Nat.zero_add]
  rfl

end Quotient

/-! ## §3. The stored vectors. -/

/-- The counts and sizes of a valid curve, whatever its numbers are. -/
structure Measured {α : Type} (c : Curve α) : Prop where
  /-- The order is two or more. -/
  two_le_order : 2 ≤ c.order
  /-- There are points enough for one span. -/
  order_le : c.order ≤ c.pointCount
  /-- The knots are as many as the points and the order ask for. -/
  knotCount_eq : c.knotCount = c.pointCount + c.order - 2
  /-- The stored vectors have their size. -/
  sized : ∀ p ∈ c.points.vectors, p.length = c.vectorSize

theorem Measured.degree_spec {α : Type} {c : Curve α} (h : c.Measured) :
    1 ≤ c.degree ∧ c.degree + 1 = c.order := by
  have two := h.two_le_order
  have degree : c.degree = c.order - 1 := rfl
  omega

variable {α : Type} [Scalar α] {c : Curve α} {i : Nat}

theorem length_window (low : c.degree ≤ i) (high : i < c.pointCount) :
    (c.spline.window i).length = c.degree + 1 := by
  have points : c.points.vectors.length = c.pointCount := rfl
  show ((c.points.vectors.drop (i - c.degree)).take (c.degree + 1)).length = _
  rw [List.length_take, List.length_drop]
  omega

/-- **The control points of a span, each times its number.** -/
theorem Measured.combine?_eq (h : c.Measured) (low : c.degree ≤ i) (high : i < c.pointCount)
    (word : c.pointCount < countLimit) {row : List α} (length : row.length = c.degree + 1) :
    c.combine? (i - c.degree) row
      = some (Point.combine c.vectorSize row (c.spline.window i)) := by
  have points : c.points.vectors.length = c.pointCount := rfl
  have size := length_window low high
  obtain ⟨sum, run, whole, -⟩ := exists_foldlM (c.addTerm? (i - c.degree) row) 0 (c.degree + 1)
    (fun n sum => sum = Point.combine c.vectorSize (row.take n) ((c.spline.window i).take n)
      ∧ sum.length = c.vectorSize) (s := Point.zero c.vectorSize)
    ⟨rfl, Point.length_zero c.vectorSize⟩ (by
      rintro j sum - hj ⟨before, length_sum⟩
      rw [Nat.zero_add] at hj
      have inside : i - c.degree + j < c.points.vectors.length := by omega
      have index : Word.unsigned? (((i - c.degree : Nat) : Int) + j) = some (i - c.degree + j) :=
        Word.unsigned?_eq (by omega) (by omega)
      have same : (c.spline.window i).getD j [] = c.points.vectors.getD (i - c.degree + j) [] := by
        show ((c.points.vectors.drop (i - c.degree)).take (c.degree + 1)).getD j [] = _
        simp [List.getD_eq_getElem?_getD, hj]
      have member : (c.points.vectors.getD (i - c.degree + j) []).length = c.vectorSize := by
        rw [List.getD_eq_getElem _ _ inside]
        exact h.sized _ (List.getElem_mem inside)
      refine ⟨Point.add sum (Point.scale (c.points.vectors.getD (i - c.degree + j) [])
        (row.getD j 0)), ?_, ?_, ?_⟩
      · simp only [addTerm?, index, Option.bind_eq_bind, Option.bind_some]
        rw [Sequence.item?_eq rfl inside [], Option.bind_some,
            Sequence.item?_eq rfl (show j < row.length by omega) 0, Option.bind_some, Point.add?,
            if_pos (by rw [Point.length_scale, member, length_sum])]
      · rw [Point.combine_take_succ _ (by omega) (by omega), ← before, same]
      · rw [Point.length_add, Point.length_scale, member, length_sum, min_self])
  rw [Nat.zero_add, List.take_of_length_le (by omega), List.take_of_length_le (by omega)] at whole
  rw [combine?, run, whole]

variable [Precision α] {word : Int → Option Int} {t : α} {count : Nat}

theorem measured_of_isValid (h : c.isValid = true) : c.Measured := by
  have defect := (isValid_iff.1 h).2
  simp only [defect?, Option.orElse_eq_orElse, Option.orElse_eq_or, Option.or_eq_none_iff] at defect
  obtain ⟨-, two, enough, count⟩ := of_countDefect?_eq_none defect.1
  exact ⟨two, enough, count, length_of_vectorDefect?_eq_none defect.2.1⟩

namespace Measured

/-- The span that is picked has all its control points. -/
theorem span_bounds (h : c.Measured) (t : α) :
    c.degree ≤ c.spline.spanAt t ∧ c.spline.spanAt t < c.pointCount := by
  have enough := h.order_le
  obtain ⟨-, degree⟩ := h.degree_spec
  have low := (c.spline.knots.span_bounds t (show c.degree ≤ c.pointCount - 1 by omega)).1
  have high := c.spline.knots.span_le t (show c.degree ≤ c.pointCount - 1 by omega)
  have span : c.spline.spanAt t = c.spline.knots.span (c.pointCount - 1) c.degree t := rfl
  omega

theorem length_of_mem_vectorDerivatives (h : c.Measured) (t : α) (count : Nat) :
    ∀ v ∈ c.vectorDerivatives t count, v.length = c.vectorSize := by
  intro v hv
  obtain ⟨k, -, rfl⟩ := List.mem_map.1 hv
  unfold Spline.derivative
  split
  · refine Point.length_combine _ fun p hp => h.sized p ?_
    exact List.mem_of_mem_drop (List.mem_of_mem_take hp)
  · exact Point.length_zero _

/-- The derivatives up to the degree, then zeros. -/
theorem vectorDerivatives_eq (c : Curve α) (t : α) (count : Nat) :
    c.vectorDerivatives t count
      = (c.spline.knots.derivativeRows (c.spline.spanAt t) t c.degree (min count c.degree)).map
          (fun row => Point.combine c.vectorSize row (c.spline.window (c.spline.spanAt t)))
        ++ List.replicate (count - min count c.degree) (Point.zero c.vectorSize) := by
  have degree : c.spline.degree = c.degree := rfl
  rw [vectorDerivatives, Spline.derivatives,
      show count + 1 = min count c.degree + 1 + (count - min count c.degree) by omega,
      List.range_add, List.map_append, KnotVector.derivativeRows, List.map_map]
  congr 1
  · rw [List.map_map]
    refine List.map_congr_left fun k hk => ?_
    have inside := List.mem_range.1 hk
    exact if_pos (by omega)
  · refine List.eq_replicate_iff.2 ⟨by simp, fun v hv => ?_⟩
    obtain ⟨k, hk, rfl⟩ := List.mem_map.1 hv
    have inside := List.mem_range.1 hk
    exact if_neg (show ¬min count c.degree + 1 + k ≤ c.degree by omega)

/-- Where the knots can be held, so can the indices around the span that is picked. -/
theorem room_spec (h : c.Measured) (room : c.knotCount + 2 < storageLimit) (t : α) :
    c.degree ≤ c.spline.spanAt t + 1 ∧ c.spline.spanAt t + c.degree < c.spline.knots.size
      ∧ c.spline.knots.size ≤ countLimit ∧ c.degree < storageLimit := by
  have limit : storageLimit = 140737488355328 := rfl
  have words : countLimit = 18446744073709551616 := rfl
  obtain ⟨-, degree⟩ := h.degree_spec
  obtain ⟨low, high⟩ := h.span_bounds t
  have enough := h.order_le
  have knots := h.knotCount_eq
  have size : c.spline.knots.size = c.knotCount + 2 := size_knots_spline c
  omega

/-- Everything but the table of the basis functions always has a result. -/
theorem vectorDerivativesIn?_eq (h : c.Measured) (room : c.knotCount + 2 < storageLimit)
    (rows : count < storageLimit) (t : α) :
    c.vectorDerivativesIn? word t count
      = (c.spline.knots.derivativeRowsIn? word (c.spline.spanAt t) c.degree t
          (min count c.degree)).bind fun rows =>
        (rows.mapM (c.combine? (c.spline.spanAt t - c.degree))).bind fun ders =>
          some (ders ++ List.replicate (count - min count c.degree) (Point.zero c.vectorSize)) := by
  have limit : storageLimit = 140737488355328 := rfl
  have words : countLimit = 18446744073709551616 := rfl
  obtain ⟨positive, degree⟩ := h.degree_spec
  have enough := h.order_le
  have knots := h.knotCount_eq
  have padded : c.knots.padded? c.order = some c.spline.knots := if_pos (by
    have size : c.knots.size = c.knotCount := rfl
    simp only [KnotVector.hasDomain, decide_eq_true_eq]
    omega)
  have size : c.spline.knots.size = c.knotCount + 2 := size_knots_spline c
  have last : Word.unsigned? ((c.pointCount : Int) - 1) = some (c.pointCount - 1) :=
    Word.unsigned?_eq (by omega) (by omega)
  have span : c.spline.knots.span? (c.pointCount - 1) c.degree t = some (c.spline.spanAt t) :=
    KnotVector.span?_eq _ ⟨by omega, by omega, by omega⟩ (by omega)
  obtain ⟨low, high⟩ := h.span_bounds t
  have start : Word.unsigned? ((c.spline.spanAt t : Int) - c.degree)
      = some (c.spline.spanAt t - c.degree) := Word.unsigned?_eq (by omega) (by omega)
  rw [vectorDerivativesIn?, if_pos ⟨room, rows⟩]
  simp only [padded, Option.bind_eq_bind, Option.bind_some]
  rw [last, Option.bind_some, span, Option.bind_some, start]
  rfl

/-- **The derivatives of the stored vectors are there if the factors fit.** -/
theorem vectorDerivativesIn?_eq_some (h : c.Measured) (room : c.knotCount + 2 < storageLimit)
    (rows : count < storageLimit) (fit : KnotVector.FactorsFit word c.degree (min count c.degree))
    (t : α) : c.vectorDerivativesIn? word t count = some (c.vectorDerivatives t count) := by
  have limit : storageLimit = 140737488355328 := rfl
  have words : countLimit = 18446744073709551616 := rfl
  obtain ⟨low, high⟩ := h.span_bounds t
  obtain ⟨below, above, size, small⟩ := h.room_spec room t
  have points : c.pointCount < countLimit := by
    have knots := h.knotCount_eq
    have two := h.two_le_order
    omega
  rw [h.vectorDerivativesIn?_eq room rows, vectorDerivatives_eq,
      KnotVector.derivativeRowsIn?_eq_some below above size small (by omega) fit, Option.bind_some,
      Sequence.mapM_eq_some fun row member => h.combine?_eq low high points (by
        obtain ⟨k, -, rfl⟩ := List.mem_map.1 member
        exact KnotVector.length_derivativeRow _ _ _ _ _)]
  rfl

/-- **They are not there when a factor leaves its signed word.** -/
theorem vectorDerivativesIn?_eq_none (h : c.Measured) (room : c.knotCount + 2 < storageLimit)
    (rows : count < storageLimit)
    (unfit : ¬KnotVector.FactorsFit Word.signed? c.degree (min count c.degree)) (t : α) :
    c.vectorDerivativesIn? Word.signed? t count = none := by
  obtain ⟨below, above, size, small⟩ := h.room_spec room t
  have none_ := KnotVector.derivativeRows?_eq_none (u := t) below above size small
    (show min count c.degree < storageLimit by omega) unfit
  rw [KnotVector.derivativeRows?] at none_
  rw [h.vectorDerivativesIn?_eq room rows, none_, Option.bind_none]

end Measured

/-! ## §4. Derivatives of curves. -/

/-- A polynomial curve has the derivatives of its stored vectors. -/
theorem derivatives_of_polynomial (polynomial : c.isRational = false) (t : α) (count : Nat) :
    c.derivatives t count = c.vectorDerivatives t count := by
  simp [derivatives, polynomial]

/-- A rational curve has those of the quotient. -/
theorem derivatives_of_rational (rational : c.isRational = true) (t : α) (count : Nat) :
    c.derivatives t count = quotientDerivatives
      ((c.vectorDerivatives t count).map (·.take c.dimension))
      ((c.vectorDerivatives t count).map (·.getD c.dimension 0)) count := by
  simp [derivatives, rational]

/-- The first of the derivatives is the value. -/
theorem getD_vectorDerivatives_zero (c : Curve α) (t : α) (count : Nat) :
    (c.vectorDerivatives t count).getD 0 [] = c.vectorAt t := by
  simp [vectorDerivatives, Spline.derivatives, Spline.derivative, KnotVector.derivativeRow,
    vectorAt, Spline.value, List.getD_eq_getElem?_getD]

/-- The value and as many derivatives as asked for. -/
theorem length_derivatives (c : Curve α) (t : α) (count : Nat) :
    (c.derivatives t count).length = count + 1 := by
  cases rational : c.isRational with
  | false => rw [derivatives_of_polynomial rational, vectorDerivatives, Spline.length_derivatives]
  | true =>
      rw [derivatives_of_rational rational]
      exact length_lowerQuotients _ _ (count + 1)

/-- The numerators of a rational curve are vectors of its space. -/
theorem Measured.length_of_mem_numerators (h : c.Measured) (rational : c.isRational = true) (t : α)
    (count : Nat) : ∀ v ∈ (c.vectorDerivatives t count).map (·.take c.dimension),
      v.length = c.dimension := by
  intro v hv
  obtain ⟨w, hw, rfl⟩ := List.mem_map.1 hv
  have size : c.vectorSize = c.dimension + 1 := if_pos rational
  rw [List.length_take, h.length_of_mem_vectorDerivatives t count w hw]
  omega

/-- Derivatives are vectors of the space of the curve. -/
theorem Measured.length_of_mem_derivatives (h : c.Measured) (t : α) (count : Nat) :
    ∀ v ∈ c.derivatives t count, v.length = c.dimension := by
  cases rational : c.isRational with
  | false =>
      have size : c.vectorSize = c.dimension := by simp [vectorSize, rational]
      rw [derivatives_of_polynomial rational, ← size]
      exact h.length_of_mem_vectorDerivatives t count
  | true =>
      rw [derivatives_of_rational rational]
      exact sized_lowerQuotients (k := count + 1) _ (h.length_of_mem_numerators rational t count)
        (by simp [vectorDerivatives])

/-! ## §5. Where the derivatives are defined. -/

/-- **The derivatives are there if the factors fit.** -/
theorem Measured.derivativesIn?_eq_some (h : c.Measured) (room : c.knotCount + 2 < storageLimit)
    (rows : count < storageLimit) (fit : KnotVector.FactorsFit word c.degree (min count c.degree))
    (t : α) : c.derivativesIn? word t count = some (c.derivatives t count) := by
  have limit : storageLimit = 140737488355328 := rfl
  have words : countLimit = 18446744073709551616 := rfl
  rw [derivativesIn?, h.vectorDerivativesIn?_eq_some room rows fit, derivatives]
  simp only [Option.bind_eq_bind, Option.bind_some]
  cases rational : c.isRational with
  | false => rfl
  | true =>
      have size : c.vectorSize = c.dimension + 1 := if_pos rational
      have sizes := h.length_of_mem_vectorDerivatives t count
      have numerator : (c.vectorDerivatives t count).mapM (fun v => Point.leading? v c.dimension)
          = some ((c.vectorDerivatives t count).map (·.take c.dimension)) :=
        Sequence.mapM_eq_some fun v hv => if_pos (by rw [sizes v hv]; omega)
      have weight : (c.vectorDerivatives t count).mapM (fun v => Sequence.item? v c.dimension)
          = some ((c.vectorDerivatives t count).map (·.getD c.dimension 0)) :=
        Sequence.mapM_eq_some fun v hv =>
          Sequence.item?_eq rfl (by rw [sizes v hv]; omega) 0
      rw [numerator, weight]
      exact foldlM_addQuotient? (d := c.dimension) count (by simp [vectorDerivatives])
        (by simp [vectorDerivatives]) (by omega) (h.length_of_mem_numerators rational t count)

/-- **In signed words the derivatives are there exactly if the factors fit.** -/
theorem Measured.derivatives?_eq (h : c.Measured) (t : α) (count : Nat) :
    c.derivatives? t count =
      if c.knotCount + 2 < storageLimit ∧ count < storageLimit
          ∧ c.degree.descFactorial (min (count + 1) c.degree) < Word.signedLimit then
        some (c.derivatives t count)
      else none := by
  rw [Curve.derivatives?]
  by_cases held : c.knotCount + 2 < storageLimit ∧ count < storageLimit
  · obtain ⟨room, rows⟩ := held
    have limits : storageLimit ≤ Word.signedLimit := by decide
    have small := (h.room_spec room t).2.2.2
    have fit := KnotVector.factorsFit_iff h.degree_spec.1
      (show c.degree < Word.signedLimit by omega) count
    by_cases fits : c.degree.descFactorial (min (count + 1) c.degree) < Word.signedLimit
    · rw [if_pos ⟨room, rows, fits⟩, h.derivativesIn?_eq_some room rows (fit.2 fits)]
    · rw [if_neg fun all => fits all.2.2, derivativesIn?,
          h.vectorDerivativesIn?_eq_none room rows fun all => fits (fit.1 all)]
      rfl
  · rw [derivativesIn?, vectorDerivativesIn?, if_neg held,
        if_neg fun all => held ⟨all.1, all.2.1⟩]
    rfl

theorem Measured.derivatives?_eq_none (h : c.Measured) (t : α) (degree : 21 ≤ c.degree)
    (many : 18 ≤ count) : c.derivatives? t count = none := by
  have large := KnotVector.le_descFactorial degree (k := min (count + 1) c.degree) (by omega)
    (Nat.min_le_right _ _)
  rw [h.derivatives?_eq, if_neg fun all => absurd all.2.2 (Nat.not_lt.2 large)]

/-- **Derivatives are defined where the factors fit their word**, and nowhere else: for degrees
up to 20 always, for degrees above only below the 18th.  Whatever the numbers, the parameter and
the count, no index leaves its list. -/
theorem derivatives_defined (h : c.isValid = true) (t : α) (count : Nat) :
    (c.derivatives? t count =
      if c.knotCount + 2 < storageLimit ∧ count < storageLimit
          ∧ c.degree.descFactorial (min (count + 1) c.degree) < Word.signedLimit then
        some (c.derivatives t count)
      else none)
    ∧ (c.degree ≤ 20 → c.knotCount + 2 < storageLimit → count < storageLimit →
      c.derivatives? t count = some (c.derivatives t count))
    ∧ (21 ≤ c.degree → 18 ≤ count → c.derivatives? t count = none) := by
  have measured := measured_of_isValid h
  have exact_ := measured.derivatives?_eq t count
  refine ⟨exact_, fun low room rows => ?_, measured.derivatives?_eq_none t⟩
  rw [exact_, if_pos ⟨room, rows, KnotVector.descFactorial_lt_of_le low _⟩]

/-- A single segment of degree 21 that stays at the origin. -/
def restSegment : Curve ℚ where
  dimension := 1
  order := 22
  points := .cartesian (List.replicate 22 [0])
  knots := ⟨List.replicate 21 0 ++ List.replicate 21 1⟩

/-- Of a segment of degree 21 there are 17 derivatives. -/
theorem derivatives_defined_restSegment :
    restSegment.isValid = true
      ∧ restSegment.derivatives? 0 17 = some (restSegment.derivatives 0 17) := by
  have valid : restSegment.isValid = true := by decide +kernel
  refine ⟨valid, ?_⟩
  rw [(derivatives_defined valid 0 17).1]
  exact if_pos (by decide)

/-- Of a segment of degree 21 there are no 21 derivatives, although it is valid and the parameter
lies in its domain. -/
theorem restSegment_derivatives_undefined :
    restSegment.isValid = true
      ∧ (restSegment.domain.1 ≤ 0 ∧ 0 ≤ restSegment.domain.2)
      ∧ restSegment.derivatives? 0 21 = none := by
  have valid : restSegment.isValid = true := by decide +kernel
  exact ⟨valid, by decide +kernel,
    (measured_of_isValid valid).derivatives?_eq_none 0 (by decide) (by decide)⟩

end Curve

end RationalSpline
