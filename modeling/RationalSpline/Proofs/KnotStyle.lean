/-
  RationalSpline.Proofs.KnotStyle
  ───────────────────────────────
  THE CLASS OF A KNOT VECTOR.

  The class is read off a few tests on the knots: their order, the domain, the two ends, the
  spacing of all knots and of those in the domain, and the runs between the ends.  A change of
  the parameter that scales all distances alike changes no result of a test, and neither does
  reading the knots backwards, which exchanges the two ends and turns every window on the knots
  into itself.

  On a valid curve the class of Bézier spans means what it says.  A test that comes earlier
  cannot claim such knots, because copies of a knot are no positive step apart, and the three
  tests that lead to the class all give the full multiplicity of every interior knot.
-/
import RationalSpline.Proofs.ClampedEnds
import RationalSpline.Proofs.MirroredRemoval
import RationalSpline.Proofs.Placement
import RationalSpline.Proofs.SplitCurve

namespace RationalSpline

/-! ## §1. Neighbours in a list. -/

namespace Sequence

variable {β γ : Type}

theorem neighbours_map (f : β → γ) (values : List β) :
    neighbours (values.map f) = (neighbours values).map (Prod.map f f) := by
  rw [neighbours, neighbours, ← List.map_tail, List.zip_map]

/-- Backwards, neighbours change places. -/
theorem neighbours_reverse (values : List β) :
    neighbours values.reverse = ((neighbours values).map Prod.swap).reverse := by
  refine List.ext_getElem (by simp) fun i h₁ h₂ => ?_
  have inside : i + 1 < values.length := by
    simp only [length_neighbours, List.length_reverse] at h₁
    omega
  have first : values.length - 1 - i = values.length - 1 - 1 - i + 1 := by omega
  simp only [neighbours, List.getElem_zip, List.getElem_tail, List.getElem_reverse,
    List.getElem_map, List.length_map, List.length_zip, List.length_tail, Prod.swap,
    Nat.min_eq_right (Nat.sub_le values.length 1), first]
  exact Prod.ext rfl (getElem_congr_idx (by omega))

end Sequence

variable {K : Type} [Field K] [LinearOrder K]

namespace KnotVector

variable {U W : KnotVector K} {order : Nat}

/-! ## §2. The tests. -/

/-- The knots between the first and the last of the domain. -/
def innerKnots (U : KnotVector K) (order : Nat) : List K :=
  (U.values.drop (order - 1)).take (U.size + 2 - order - order)

/-- The tests that decide the class of knots enough for a span have the same results. -/
structure TestedAlike (order : Nat) (U W : KnotVector K) : Prop where
  /-- Both domains are empty, or none. -/
  domain : (W.domain order).2 ≤ (W.domain order).1 ↔ (U.domain order).2 ≤ (U.domain order).1
  /-- Both have two clamped ends, or none has. -/
  clamped : (W.isClamped order .start && W.isClamped order .finish)
    = (U.isClamped order .start && U.isClamped order .finish)
  /-- The knots are evenly spaced in both, or in none. -/
  whole : isSpacedBy (W.endSpacing order) W.values = isSpacedBy (U.endSpacing order) U.values
  /-- So are the knots of the domain. -/
  inside : isSpacedBy (W.endSpacing order) (W.domainKnots order)
    = isSpacedBy (U.endSpacing order) (U.domainKnots order)
  /-- The runs between the ends have the same multiplicities, in some order. -/
  runs : ((runs (W.innerKnots order)).map (·.multiplicity)).Perm
    ((runs (U.innerKnots order)).map (·.multiplicity))

/-- **The class depends on the results of the tests alone.** -/
theorem style_congr (size : W.size = U.size) (ordered : W.isNonDecreasing = U.isNonDecreasing)
    (tests : 2 ≤ order → 2 * (order - 1) ≤ U.size → TestedAlike order U W) :
    W.style order = U.style order := by
  unfold style
  dsimp only
  rw [size, ordered]
  by_cases short : order < 2 ∨ U.size < 2 * (order - 1) ∨ U.isNonDecreasing = false
  · rw [if_pos short, if_pos short]
  have same : TestedAlike order U W := tests (by omega) (by omega)
  rw [if_neg short, if_neg short]
  by_cases empty : (U.domain order).2 ≤ (U.domain order).1
  · rw [if_pos empty, if_pos (same.domain.2 empty)]
  have inside := same.inside
  rw [domainKnots, domainKnots, size] at inside
  have full : ((runs ((W.values.drop (order - 1)).take (U.size + 2 - order - order))).all
        fun m => m.multiplicity == order - 1)
      = (runs ((U.values.drop (order - 1)).take (U.size + 2 - order - order))).all
        fun m => m.multiplicity == order - 1 := by
    have runs := same.runs
    rw [innerKnots, innerKnots, size] at runs
    have all := runs.all_eq (f := (· == order - 1))
    rwa [List.all_map, List.all_map] at all
  rw [if_neg empty, if_neg fun e => empty (same.domain.1 e), same.clamped, same.whole, inside,
      full]

/-! ## §3. A change of the parameter. -/

section Scales

variable [IsStrictOrderedRing K] {f : K → K} {σ : K}

/-- Scaled values are evenly spaced if they were before. -/
theorem isSpacedBy_map (scales : Scales f σ) (delta : K) (values : List K) :
    isSpacedBy (σ * delta) (values.map f) = isSpacedBy delta values := by
  unfold isSpacedBy
  rw [Sequence.neighbours_map, List.all_map]
  refine congrArg (List.all _) (funext fun pair => decide_eq_decide.2 ?_)
  show Scalar.abs (f pair.2 - f pair.1 - σ * delta) ≤ σ * delta * _ ↔ _
  rw [Scalar.abs_eq, Scalar.abs_eq, scales.sub_eq, ← mul_sub, abs_mul, abs_of_pos scales.pos,
      mul_assoc, mul_le_mul_iff_right₀ scales.pos]

theorem isNonDecreasing_map (scales : Scales f σ) :
    (U.map f).isNonDecreasing = U.isNonDecreasing := by
  rw [Bool.eq_iff_iff, isNonDecreasing_iff, isNonDecreasing_iff]
  exact List.pairwise_map.trans (by simp only [scales.le_iff]; rfl)

theorem testedAlike_map (scales : Scales f σ) (two : 2 ≤ order)
    (size : 2 * (order - 1) ≤ U.size) : TestedAlike order U (U.map f) := by
  have reaches : U.hasDomain order = true := decide_eq_true ⟨two, by omega⟩
  have spacing : (U.map f).endSpacing order = σ * U.endSpacing order := by
    simp only [endSpacing, size_map]
    rw [knot_map f U (by omega), knot_map f U (by omega), knot_map f U (by omega),
        knot_map f U (by omega)]
    linear_combination (scales.sub_eq (U.knot (order - 1)) (U.knot (order - 2))
      + scales.sub_eq (U.knot (U.size + 2 - order - 1)) (U.knot (U.size + 2 - order - 2)))
      * Scalar.half
  exact
    { domain := by
        simp only [domain, size_map]
        rw [knot_map f U (by omega), knot_map f U (by omega), scales.le_iff]
      clamped := by
        rw [isClamped_map scales.injective reaches, isClamped_map scales.injective reaches]
      whole := by
        rw [spacing]
        exact isSpacedBy_map scales _ U.values
      inside := by
        rw [spacing, domainKnots, size_map, map, ← List.map_drop, ← List.map_take]
        exact isSpacedBy_map scales _ _
      runs := by
        rw [innerKnots, size_map, map, ← List.map_drop, ← List.map_take,
            runs_map scales.injective, List.map_map]
        exact List.Perm.refl _ }

/-- **Scaling all distances keeps the class.** -/
theorem style_map (scales : Scales f σ) (U : KnotVector K) (order : Nat) :
    (U.map f).style order = U.style order :=
  style_congr (size_map f U) (isNonDecreasing_map scales) fun two size =>
    testedAlike_map scales two size

end Scales

/-! ## §4. The opposite direction. -/

/-- Backwards and negated, values keep their spacing. -/
theorem isSpacedBy_invert (delta : K) (values : List K) :
    isSpacedBy delta (values.reverse.map Neg.neg) = isSpacedBy delta values := by
  unfold isSpacedBy
  rw [Sequence.neighbours_map, Sequence.neighbours_reverse, List.all_map, List.all_reverse,
      List.all_map]
  refine congrArg (List.all _) (funext fun pair => decide_eq_decide.2 ?_)
  show Scalar.abs (-pair.1 - -pair.2 - delta) ≤ _ ↔ _
  rw [neg_sub_neg]

section Invert

variable [IsStrictOrderedRing K]

theorem isNonDecreasing_invert : U.invert.isNonDecreasing = U.isNonDecreasing := by
  rw [Bool.eq_iff_iff, isNonDecreasing_iff, isNonDecreasing_iff]
  exact ⟨fun h => U.invert_invert ▸ h.invert, fun h => h.invert⟩

theorem testedAlike_invert (two : 2 ≤ order) (size : 2 * (order - 1) ≤ U.size) :
    TestedAlike order U U.invert := by
  have opposite : ∀ i j, i + j + 1 = U.size → U.invert.knot i = -U.knot j := fun i j =>
    U.knot_invert_opposite
  -- a window with as many knots before it as behind it is reversed in place
  have window : ∀ i n, i + i + n = U.size → (U.invert.values.drop i).take n
      = ((U.values.drop i).take n).reverse.map Neg.neg := by
    intro i n fits
    rw [invert, ← List.map_drop, ← List.map_take, Sequence.take_drop_reverse fits]
  have spacing : U.invert.endSpacing order = U.endSpacing order := by
    simp only [endSpacing, size_invert]
    rw [opposite (order - 1) (U.size + 2 - order - 2) (by omega),
        opposite (order - 2) (U.size + 2 - order - 1) (by omega),
        opposite (U.size + 2 - order - 1) (order - 2) (by omega),
        opposite (U.size + 2 - order - 2) (order - 1) (by omega)]
    ring
  exact
    { domain := by
        simp only [domain, size_invert]
        rw [opposite (order - 2) (U.size + 1 - order) (by omega),
            opposite (U.size + 1 - order) (order - 2) (by omega), neg_le_neg_iff]
      clamped := by
        obtain ⟨first, last⟩ := isClamped_invert two (show order ≤ U.size by omega)
        rw [first, last, Bool.and_comm]
      whole := by
        rw [spacing]
        exact isSpacedBy_invert _ U.values
      inside := by
        rw [spacing, domainKnots, size_invert, window _ _ (by omega)]
        exact isSpacedBy_invert _ _
      runs := by
        rw [innerKnots, size_invert, window _ _ (by omega), List.map_reverse, runs_reverse,
            runs_map neg_injective, List.map_reverse, List.map_map]
        exact List.reverse_perm _ }

/-- **The class does not depend on the direction.** -/
theorem style_invert (U : KnotVector K) (order : Nat) : U.invert.style order = U.style order :=
  style_congr U.size_invert isNonDecreasing_invert fun two size => testedAlike_invert two size

end Invert

end KnotVector

/-! ## §5. Bézier spans. -/

namespace Curve

variable [IsStrictOrderedRing K] {c : Curve K}

omit [IsStrictOrderedRing K] in
/-- The three tests that lead to the class of Bézier spans all give the full multiplicity of
every knot between two clamped ends. -/
theorem Regular.of_hasBezierSpans (h : c.Regular) (spans : c.hasBezierSpans = true) :
    c.isClamped .start = true ∧ c.isClamped .finish = true
      ∧ ∀ u ∈ c.interior, c.knots.count u = c.degree := by
  obtain ⟨two, enough, size, degree⟩ := h.counts
  have count : c.knots.size + 2 - c.order = c.pointCount := by omega
  have ordered := (KnotVector.isNonDecreasing_iff _).2 h.ordered
  have domain : ¬(c.knots.domain c.order).2 ≤ (c.knots.domain c.order).1 := not_le.2 h.domain_lt
  have interior := h.interior_eq
  have style : c.knots.style c.order = .piecewiseBezier := beq_iff_eq.1 spans
  unfold KnotVector.style at style
  dsimp only at style
  rw [count, if_neg (by simp only [ordered]; simp; omega), if_neg domain] at style
  split_ifs at style with unclamped spaced line spaced runs
  · -- one span has no interior, and a knot of a polyline is not repeated
    simp only [Bool.not_eq_true', Bool.not_eq_false, Bool.and_eq_true] at unclamped
    refine ⟨unclamped.1, unclamped.2, fun u hu => ?_⟩
    rcases line with single | linear
    · rw [← interior, single, Nat.sub_self, List.take_zero] at hu
      cases hu
    · have atMost := h.count_le u
      have atLeast := List.count_pos_iff.2 (List.mem_filter.1 hu).1
      rw [← KnotVector.count_eq_list_count] at atLeast
      omega
  · simp only [Bool.not_eq_true', Bool.not_eq_false, Bool.and_eq_true] at unclamped
    refine ⟨unclamped.1, unclamped.2, fun u hu => ?_⟩
    rw [interior, List.all_eq_true] at runs
    rw [← KnotVector.flatMap_runs c.interior] at hu
    obtain ⟨m, hm, copy⟩ := List.mem_flatMap.1 hu
    rw [List.eq_of_mem_replicate copy, h.toSound.count_of_mem_runs_interior hm, degree]
    exact beq_iff_eq.1 (runs m hm)

/-- Clamped ends and full knots between them are full knots. -/
theorem Regular.full_of_interior (h : c.Regular) (start : c.isClamped .start = true)
    (finish : c.isClamped .finish = true)
    (inner : ∀ u ∈ c.interior, c.knots.count u = c.degree) : c.Full := by
  obtain ⟨e, ok, -, -, -, -, -, values⟩ := h.clampEnds
  rw [h.toSound.clampEnds_of_isClamped start finish] at ok
  obtain rfl : c = e := Except.ok.inj ok
  have lt := h.domain_lt
  have ends : ∀ u, c.knots.count u = (if c.domain.1 = u then c.degree else 0)
      + c.interior.count u + if c.domain.2 = u then c.degree else 0 := fun u => by
    rw [KnotVector.count_eq_list_count, values, List.count_append, List.count_append,
        List.count_replicate, List.count_replicate]
    simp only [beq_iff_eq]
    rfl
  have notMem : ∀ u, ¬(c.domain.1 < u ∧ u < c.domain.2) → c.interior.count u = 0 := fun u out =>
    List.count_eq_zero.2 fun member => out (between_of_mem_interior member)
  intro u hu
  rw [values, List.mem_append, List.mem_append] at hu
  rcases hu with (first | between) | last
  · obtain rfl := List.eq_of_mem_replicate first
    rw [ends, if_pos rfl, if_neg lt.ne', notMem _ fun e => lt_irrefl _ e.1]
    omega
  · exact inner u between
  · obtain rfl := List.eq_of_mem_replicate last
    rw [ends, if_pos rfl, if_neg lt.ne, notMem _ fun e => lt_irrefl _ e.2]
    omega

theorem Regular.hasBezierSpans_iff (h : c.Regular) :
    c.hasBezierSpans = true ↔ c.isClamped .start = true ∧ c.isClamped .finish = true
      ∧ ∀ u ∈ c.knots.values, c.domain.1 < u → u < c.domain.2 → c.knots.count u = c.degree := by
  have inner : (∀ u ∈ c.interior, c.knots.count u = c.degree)
      ↔ ∀ u ∈ c.knots.values, c.domain.1 < u → u < c.domain.2 → c.knots.count u = c.degree := by
    simp [interior, and_imp]
  rw [← inner]
  refine ⟨h.of_hasBezierSpans, ?_⟩
  rintro ⟨start, finish, full⟩
  exact h.hasBezierSpans_of_full (h.full_of_interior start finish full)

end Curve

/-- **The class of a knot vector is independent of parameter and direction, and that of Bézier
spans is sound.**  Neither an affine change of the knots nor reading them backwards changes the
class, whatever the order; and a valid curve has Bézier spans exactly if both ends are clamped
and every knot strictly inside the domain occurs as often as the degree says. -/
theorem KnotVector.style_independent [IsStrictOrderedRing K] [Precision K] [Precision.Spaced K] :
    (∀ (U : KnotVector K) (order : Nat) (a b : K), 0 < a →
        (U.map fun k => a * k + b).style order = U.style order
          ∧ (U.map fun k => a * k + b).style? order = U.style? order)
      ∧ (∀ (U : KnotVector K) (order : Nat),
        U.invert.style order = U.style order ∧ U.invert.style? order = U.style? order)
      ∧ ∀ c : Curve K, c.isValid = true →
        (c.hasBezierSpans = true ↔ c.isClamped .start = true ∧ c.isClamped .finish = true
          ∧ ∀ u ∈ c.knots.values, c.domain.1 < u → u < c.domain.2
            → c.knots.count u = c.degree) := by
  refine ⟨fun U order a b pos => ?_, fun U order => ?_, fun c valid => ?_⟩
  · have scales : Scales (fun k => a * k + b) a := ⟨pos, fun x y => by ring⟩
    have same := style_map scales U order
    exact ⟨same, by rw [style?, same, style?]⟩
  · have same := style_invert U order
    exact ⟨same, by rw [style?, same, style?]⟩
  · exact (Curve.regular_of_isValid valid).hasBezierSpans_iff

/-- Two parabolas, the second on a span twice as long. -/
def Curve.twoParabolas : Curve ℚ where
  dimension := 1
  order := 3
  points := .cartesian [[0], [2], [1], [-1], [4]]
  knots := ⟨[0, 0, 1, 1, 3, 3]⟩

/-- Its knots, and those of a curve whose spans are of different lengths without being Bézier
spans, twice as far apart and backwards. -/
theorem KnotVector.style_independent_twoParabolas :
    (0 : ℚ) < 2
      ∧ ((⟨[0, 0, 1, 3, 3]⟩ : KnotVector ℚ).map fun k => 2 * k + 1).style 3 = .clampedEnd
      ∧ (⟨[0, 0, 1, 3, 3]⟩ : KnotVector ℚ).invert.style 3 = .clampedEnd
      ∧ Curve.twoParabolas.isValid = true ∧ Curve.twoParabolas.hasBezierSpans = true
      ∧ Curve.twoParabolas.knots.invert.style 3 = .piecewiseBezier := by
  have valid : Curve.twoParabolas.isValid = true := by decide +kernel
  obtain ⟨affine, backwards, spans⟩ := style_independent (K := ℚ)
  have clamped : (⟨[0, 0, 1, 3, 3]⟩ : KnotVector ℚ).style 3 = .clampedEnd := by decide +kernel
  have bezier : Curve.twoParabolas.hasBezierSpans = true :=
    (spans _ valid).2 ⟨by decide +kernel, by decide +kernel, by decide +kernel⟩
  exact ⟨two_pos, (affine _ 3 2 1 two_pos).1.trans clamped, (backwards _ 3).1.trans clamped,
    valid, bezier, (backwards _ 3).1.trans (beq_iff_eq.1 bezier)⟩

end RationalSpline
