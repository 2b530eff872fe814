/-
  RationalSpline.Proofs.Uniqueness
  ────────────────────────────────
  A CURVE HAS ONE CONTROL POLYGON ON ITS KNOTS.

  A form is determined by its diagonal: at mixtures of two numbers the diagonal is a
  polynomial in the quotient of their weights, whose coefficients are the values of the
  form at those numbers.  So curves with the same knots and the same values have the
  same control vectors, as far as these act on a span.

  Every control vector of a regular curve acts on some span.  So what an operation
  stores is known as soon as its knots are, if it keeps the pieces of the curve.
-/
import RationalSpline.Proofs.Pieces

namespace RationalSpline

variable {K V : Type} [Field K]

/-! ## §1. The diagonal. -/

namespace PolarForm

variable [AddCommGroup V] [Module K V] {p : Nat}

/-- The value at repeated mixtures, by how often the second number is taken. -/
theorem expand (f : PolarForm K V p) (a x y : K) (n : Nat) {s : Multiset K}
    (card : n + s.card = p) :
    f (Multiset.replicate n (mix a x y) + s)
      = ∑ i ∈ Finset.HasAntidiagonal.antidiagonal n, n.choose i.1 • ((a ^ i.1 * (1 - a) ^ i.2)
          • f (Multiset.replicate i.2 x + Multiset.replicate i.1 y + s)) := by
  induction n generalizing s with
  | zero => simp
  | succ n ih =>
      -- one mixture is split, the others are expanded on either side
      have first : (1 - a) • f (Multiset.replicate n (mix a x y) + x ::ₘ s)
          = ∑ i ∈ Finset.HasAntidiagonal.antidiagonal n,
              n.choose i.1 • ((a ^ i.1 * (1 - a) ^ (i.2 + 1))
              • f (Multiset.replicate (i.2 + 1) x + Multiset.replicate i.1 y + s)) := by
        rw [ih (by rw [Multiset.card_cons]; omega), Finset.smul_sum]
        refine Finset.sum_congr rfl fun i _ => ?_
        rw [smul_comm, smul_smul, Multiset.replicate_succ, Multiset.cons_add, Multiset.cons_add,
            Multiset.add_cons]
        congr 2
        ring
      have second : a • f (Multiset.replicate n (mix a x y) + y ::ₘ s)
          = ∑ i ∈ Finset.HasAntidiagonal.antidiagonal n,
              n.choose i.2 • ((a ^ (i.1 + 1) * (1 - a) ^ i.2)
              • f (Multiset.replicate i.2 x + Multiset.replicate (i.1 + 1) y + s)) := by
        rw [ih (by rw [Multiset.card_cons]; omega), Finset.smul_sum]
        refine Finset.sum_congr rfl fun i hi => ?_
        rw [smul_comm, smul_smul, Multiset.replicate_succ, Multiset.add_cons, Multiset.add_cons,
            Multiset.cons_add,
            Nat.choose_symm_of_eq_add (Finset.HasAntidiagonal.mem_antidiagonal.1 hi).symm]
        congr 2
        ring
      have split := f.affine (Multiset.replicate n (mix a x y) + s) a x y (by
        rw [Multiset.card_add, Multiset.card_replicate]
        omega)
      rw [Multiset.replicate_succ, Multiset.cons_add, split, mix, ← Multiset.add_cons,
          ← Multiset.add_cons, first, second,
          Finset.sum_antidiagonal_choose_succ_nsmul (fun m n => (a ^ m * (1 - a) ^ n)
            • f (Multiset.replicate n x + Multiset.replicate m y + s)) n]

end PolarForm

variable [LinearOrder K] [IsStrictOrderedRing K] {d p : Nat}

/-- A positive quotient of the barycentric coordinates belongs to a point of the interval. -/
theorem mix_quotient_mem {a b r : K} (lt : a < b) (pos : 0 < r) :
    a < mix (r / (1 + r)) a b ∧ mix (r / (1 + r)) a b < b := by
  have low : mix (r / (1 + r)) a b - a = r / (1 + r) * (b - a) := by
    simp only [mix, smul_eq_mul]
    ring
  have high : b - mix (r / (1 + r)) a b = 1 / (1 + r) * (b - a) := by
    simp only [mix, smul_eq_mul]
    field_simp
    ring
  have width : 0 < b - a := sub_pos.2 lt
  exact ⟨sub_pos.1 (low ▸ by positivity), sub_pos.1 (high ▸ by positivity)⟩

namespace PolarForm

/-- **The diagonal in the quotient of the two barycentric coordinates**, cleared of its
denominator: the coefficients are the values at the ends of the interval. -/
theorem pow_smul_diagonal (f : PolarForm K (Fin d → K) p) (a b : K) {r : K} (pos : 0 < r) :
    (1 + r) ^ p • f (Multiset.replicate p (mix (r / (1 + r)) a b))
      = ∑ m ∈ Finset.range (p + 1), (r ^ m * p.choose m)
          • f (Multiset.replicate (p - m) a + Multiset.replicate m b) := by
  have expanded := f.expand (r / (1 + r)) a b p (s := 0) (by simp)
  rw [add_zero] at expanded
  rw [expanded, Finset.Nat.sum_antidiagonal_eq_sum_range_succ_mk, Finset.smul_sum]
  refine Finset.sum_congr rfl fun m hm => ?_
  have hm' : m ≤ p := Nat.lt_succ_iff.1 (Finset.mem_range.1 hm)
  have rest : 1 - r / (1 + r) = 1 / (1 + r) := by
    field_simp
    ring
  have powers : (1 + r) ^ p * ((r / (1 + r)) ^ m * (1 - r / (1 + r)) ^ (p - m)) = r ^ m := by
    rw [rest, div_pow, div_pow, one_pow,
        show (1 + r) ^ p = (1 + r) ^ m * (1 + r) ^ (p - m) by
          rw [← pow_add, Nat.add_sub_cancel' hm']]
    field_simp
  rw [add_zero, ← Nat.cast_smul_eq_nsmul K, smul_smul, smul_smul, ← powers]
  congr 1
  ring

open Polynomial in
/-- Forms with one diagonal on an interval have one value for each choice of its ends. -/
theorem eq_on_ends (g h : PolarForm K (Fin d → K) p) {a b : K} (lt : a < b)
    (same : ∀ t, a < t → t < b → g (Multiset.replicate p t) = h (Multiset.replicate p t))
    {k : Nat} (hk : k ≤ p) : g (Multiset.replicate (p - k) a + Multiset.replicate k b)
      = h (Multiset.replicate (p - k) a + Multiset.replicate k b) := by
  funext i
  obtain ⟨c, hc⟩ : ∃ c : Nat → K, c = fun m => p.choose m
    * (g (Multiset.replicate (p - m) a + Multiset.replicate m b) i
      - h (Multiset.replicate (p - m) a + Multiset.replicate m b) i) := ⟨_, rfl⟩
  -- the difference of the diagonals is a polynomial that vanishes at every positive quotient
  have zero : (∑ m ∈ Finset.range (p + 1), C (c m) * X ^ m : K[X]) = 0 := by
    refine eq_zero_of_infinite_isRoot _ ((Set.Ioi_infinite (0 : K)).mono fun r pos => ?_)
    obtain ⟨low, high⟩ := mix_quotient_mem lt pos
    have cleared := congrArg ((1 + r) ^ p • ·) (same _ low high)
    rw [g.pow_smul_diagonal a b pos, h.pow_smul_diagonal a b pos] at cleared
    have scaled := congrFun cleared i
    rw [Finset.sum_apply, Finset.sum_apply] at scaled
    show eval r _ = 0
    rw [eval_finsetSum, ← sub_eq_zero.2 scaled, ← Finset.sum_sub_distrib]
    refine Finset.sum_congr rfl fun m _ => ?_
    rw [eval_mul, eval_C, eval_pow, eval_X, hc, Pi.smul_apply, Pi.smul_apply, smul_eq_mul,
        smul_eq_mul]
    ring
  have coefficient := congrArg (fun Q => coeff Q k) zero
  simp only [finsetSum_coeff, coeff_C_mul_X_pow, coeff_zero] at coefficient
  rw [Finset.sum_ite_eq, if_pos (Finset.mem_range.2 (by omega)), hc] at coefficient
  have choose : (p.choose k : K) ≠ 0 := Nat.cast_ne_zero.2 (Nat.choose_pos hk).ne'
  exact sub_eq_zero.1 ((mul_eq_zero.1 coefficient).resolve_left choose)

/-- **A form is determined by its diagonal on any interval.** -/
theorem eq_of_diagonal (g h : PolarForm K (Fin d → K) p) {a b : K} (lt : a < b)
    (same : ∀ t, a < t → t < b → g (Multiset.replicate p t) = h (Multiset.replicate p t))
    {s : Multiset K} (card : s.card = p) : g s = h s := by
  -- `p` copies of `a` and then copies of `b` are knots whose stretches are the choices of ends
  refine eq_of_stretches (u := fun r => if r < p then a else b) g h ?_ ?_ card
  · intro r hr s hs _
    simp only [hr, not_lt.2 hs, if_true, if_false]
    exact lt.ne
  · intro j hj
    have cut : stretch (fun r => if r < p then a else b) j (p - j + j)
        = Multiset.replicate (p - j) a + Multiset.replicate j b := by
      rw [stretch_add]
      refine congrArg₂ _ (stretch_eq_replicate fun r hr => ?_) (stretch_eq_replicate fun r hr => ?_)
      · exact if_pos (by omega)
      · exact if_neg (by omega)
    rw [Nat.sub_add_cancel hj] at cut
    rw [cut, g.eq_on_ends h lt same hj]

end PolarForm

/-! ## §2. The control vectors. -/

/-- **Equal values on equal knots come from equal control vectors.** -/
theorem Curve.Sound.vectors_eq_of_definedVector_eq {c e : Curve K} (hc : c.Sound) (he : e.Sound)
    (size : e.vectorSize = c.vectorSize) (order : e.order = c.order)
    (count : e.pointCount = c.pointCount) (knots : e.knots = c.knots)
    (same : ∀ t, c.domain.1 ≤ t → t ≤ c.domain.2 → e.definedVector t = c.definedVector t)
    {i j : Nat} (first : c.degree ≤ i) (last : i < c.pointCount)
    (span : c.spline.knots.knot i < c.spline.knots.knot (i + 1)) (hj : j ≤ i)
    (hj' : i ≤ j + c.degree) :
    e.points.vectors.getD j [] = c.points.vectors.getD j [] := by
  have padded : e.spline.knots = c.spline.knots := by
    show e.knots.padded e.order = c.knots.padded c.order
    rw [knots, order]
  have domain : e.domain = c.domain := by
    show e.knots.domain e.order = c.knots.domain c.order
    rw [knots, order]
  have degree : e.degree = c.degree := by
    show e.order - 1 = c.order - 1
    rw [order]
  have ordered := hc.ordered_padded
  have total := size_padded_knots hc
  have points : c.points.vectors.length = c.pointCount := rfl
  obtain ⟨F, hF⟩ := hc.exists_follows rfl rfl
  obtain ⟨G, hG⟩ := he.exists_follows size degree
  obtain ⟨t', low, high⟩ := exists_between span
  -- the two forms of this span have the same diagonal there
  have diagonal : ∀ t, c.spline.knots.knot i < t → t < c.spline.knots.knot (i + 1) →
      G t' (Multiset.replicate c.degree t) = F t' (Multiset.replicate c.degree t) := by
    intro t ht ht'
    have start : c.domain.1 ≤ t := by
      rw [hc.domain_start]
      exact le_trans (ordered.knot_le first (by omega)) ht.le
    have finish : t < c.domain.2 := by
      rw [hc.domain_finish]
      exact lt_of_lt_of_le ht' (ordered.knot_le (by omega) (by omega))
    have on : c.spline.knots.onSpan c.domain.2 t i = true :=
      KnotVector.onSpan_iff.2 (Or.inl ⟨ht.le, ht', finish⟩)
    refine Point.ofVec_injective ?_
    rw [← hc.definedVector_eq rfl rfl hF first last on low high, ← same t start finish.le]
    exact (he.definedVector_eq size degree hG first (count ▸ last)
      (by rw [padded, domain]; exact on) (by rw [padded]; exact low)
      (by rw [padded]; exact high)).symm
  have value := hF i first last t' low high j hj hj'
  have value' := hG i first (by show i < e.pointCount; omega) t' (by rw [padded]; exact low)
    (by rw [padded]; exact high) j hj hj'
  rw [value, value', padded, (G t').eq_of_diagonal (F t') span diagonal (card_stretch _ _ _)]

/-! ## §3. The stored curve. -/

omit [Field K] [LinearOrder K] [IsStrictOrderedRing K] in
/-- Polygons are equal if their vectors are and mean the same. -/
theorem ControlPoints.eq_of_vectors_eq {P Q : ControlPoints K}
    (rational : Q.isRational = P.isRational) (vectors : Q.vectors = P.vectors) : Q = P := by
  cases P <;> cases Q <;> simp_all [ControlPoints.isRational, ControlPoints.vectors]

namespace Curve

variable {b c e : Curve K}

omit [IsStrictOrderedRing K] in
/-- **Every control point of a regular curve acts on a span.** -/
theorem Regular.exists_span (h : c.Regular) {j : Nat} (hj : j < c.pointCount) :
    ∃ i, c.degree ≤ i ∧ i < c.pointCount ∧ j ≤ i ∧ i ≤ j + c.degree
      ∧ c.spline.knots.knot i < c.spline.knots.knot (i + 1) := by
  obtain ⟨two, enough, size, degree⟩ := h.counts
  have inner : ∀ i < c.knots.size, c.spline.knots.knot (i + 1) = c.knots.knot i :=
    fun i hi => KnotVector.knot_padded c.knots c.order hi
  by_cases first : j ≤ c.degree
  · refine ⟨c.degree, le_rfl, by omega, first, by omega, ?_⟩
    rw [show c.degree = c.order - 2 + 1 by omega, inner _ (by omega), inner _ (by omega),
        show c.order - 2 + 1 = c.order - 1 by omega]
    exact h.first_span
  by_cases last : c.pointCount - 1 ≤ j + c.degree
  · refine ⟨c.pointCount - 1, by omega, by omega, by omega, last, ?_⟩
    rw [show c.pointCount - 1 = c.pointCount - 2 + 1 by omega, inner _ (by omega),
        inner _ (by omega), show c.pointCount - 2 + 1 = c.pointCount - 1 by omega]
    exact h.last_span
  -- the run of the first knot of the support ends within it
  obtain ⟨j, rfl⟩ : ∃ i, j = i + 1 := ⟨j - 1, by omega⟩
  have few := h.count_le (c.knots.knot j)
  have split := KnotVector.countUpTo_eq c.knots (c.knots.knot j)
  have upTo := (h.ordered.knot_le_iff (i := j) (by omega)).1 le_rfl
  have below : ¬j < c.knots.countBelow (c.knots.knot j) := fun lt =>
    lt_irrefl _ ((h.ordered.knot_lt_iff (by omega)).2 lt)
  obtain ⟨k, run⟩ : ∃ k, c.knots.countUpTo (c.knots.knot j) = k + 1 :=
    ⟨c.knots.countUpTo (c.knots.knot j) - 1, by omega⟩
  refine ⟨k + 1, by omega, by omega, by omega, by omega, ?_⟩
  rw [inner _ (by omega), inner _ (by omega)]
  refine lt_of_le_of_lt ((h.ordered.knot_le_iff (u := c.knots.knot j) (by omega)).2 (by omega))
    (not_le.1 fun le => ?_)
  have := (h.ordered.knot_le_iff (by omega)).1 le
  omega

/-- **A regular curve is determined by its knots and its values.** -/
theorem Regular.eq_of_definedVector (hc : c.Regular) (he : e.Sound)
    (dimension : e.dimension = c.dimension) (order : e.order = c.order)
    (rational : e.isRational = c.isRational) (knots : e.knots = c.knots)
    (same : ∀ t, c.domain.1 ≤ t → t ≤ c.domain.2 → e.definedVector t = c.definedVector t) :
    e = c := by
  have two := hc.two_le_order
  have size : e.vectorSize = c.vectorSize := by
    rw [Curve.vectorSize, rational, dimension, Curve.vectorSize]
  have count : e.pointCount = c.pointCount := by
    have before := hc.knotCount_eq
    have after := he.knotCount_eq
    have same : e.knotCount = c.knotCount := congrArg KnotVector.size knots
    have enough := hc.order_le
    have enough' := he.order_le
    omega
  have vectors : e.points.vectors = c.points.vectors := by
    refine List.ext_getElem count fun j hj hj' => ?_
    obtain ⟨i, first, last, low, high, span⟩ := hc.exists_span hj'
    have entry :=
      hc.toSound.vectors_eq_of_definedVector_eq he size order count knots same first last
      span low high
    rwa [List.getD_eq_getElem _ _ hj, List.getD_eq_getElem _ _ hj'] at entry
  have points := ControlPoints.eq_of_vectors_eq rational vectors
  cases c
  cases e
  exact Curve.mk.injEq .. ▸ ⟨dimension, order, points, knots⟩

/-- **What keeps the pieces is determined by its knots.** -/
theorem Regular.eq_of_keeps (hb : b.Sound) (hc : c.Regular) (he : e.Sound)
    (keeps : Keeps b c) (keeps' : Keeps b e) (knots : e.knots = c.knots) : e = c := by
  have lt : b.domain.1 < b.domain.2 := keeps.domain ▸ hc.domain_lt
  refine hc.eq_of_definedVector he (keeps'.dimension.trans keeps.dimension.symm)
    (keeps'.order.trans keeps.order.symm) (keeps'.rational.trans keeps.rational.symm) knots
    fun t h₀ h₁ => ?_
  rw [keeps.domain] at h₀ h₁
  rw [keeps'.definedVector_eq hb he lt h₀ h₁, keeps.definedVector_eq hb hc.toSound lt h₀ h₁]

end Curve

end RationalSpline
