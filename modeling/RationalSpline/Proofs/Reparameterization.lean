/-
  RationalSpline.Proofs.Reparameterization
  ────────────────────────────────────────
  A REPARAMETERIZED CURVE FOLLOWS ITS MAP.

  A linear fractional map `φ` with the denominator `D` has the chords

      φ y - φ x  =  slope · (y - x) / (D x · D y)

  so a position between `φ a` and `φ b` is the position between `a` and `b`, up to the
  denominators.  Hence a form `g` whose values at the images of the stretches of a span
  are those of `f`, divided by the denominators at their knots, is `f` in this sense at
  all arguments:

      g (φ x₁, …, φ xₚ)  =  f (x₁, …, xₚ) / (D x₁ · … · D xₚ)

  On the diagonal this is the curve at the mapped parameter, up to a factor of the
  homogeneous vector.
-/
import RationalSpline.Proofs.FractionalMap
import RationalSpline.Proofs.Placement
import RationalSpline.Proofs.Smoothness

namespace RationalSpline

variable {K V : Type} [Field K] [AddCommGroup V] [Module K V]

/-! ## §1. Forms under a linear fractional map. -/

/-- The chords of `φ` are those of a linear fractional map with the denominator `D`. -/
structure Fractional (φ D : K → K) (slope : K) : Prop where
  /-- The map is not constant. -/
  slope_ne : slope ≠ 0
  /-- The chord between two parameters with a denominator. -/
  chord : ∀ {x y : K}, D x ≠ 0 → D y ≠ 0 → φ y - φ x = slope * (y - x) / (D x * D y)

namespace Fractional

variable {φ D : K → K} {slope : K}

theorem ne (h : Fractional φ D slope) {a b : K} (ha : D a ≠ 0) (hb : D b ≠ 0) (apart : b ≠ a) :
    φ b ≠ φ a := by
  refine sub_ne_zero.1 ?_
  rw [h.chord ha hb]
  exact div_ne_zero (mul_ne_zero h.slope_ne (sub_ne_zero.2 apart)) (mul_ne_zero ha hb)

/-- What is divided by the denominators at `a` and `b` gives, at the image of `x`, what is
divided by the denominator at `x`. -/
theorem mix_eq (h : Fractional φ D slope) {a b x : K} (ha : D a ≠ 0) (hb : D b ≠ 0)
    (hx : D x ≠ 0) (apart : b ≠ a) (v w : V) :
    mix ((φ x - φ a) / (φ b - φ a)) ((D a)⁻¹ • v) ((D b)⁻¹ • w)
      = (D x)⁻¹ • mix ((x - a) / (b - a)) v w := by
  have slope := h.slope_ne
  have length : b - a ≠ 0 := sub_ne_zero.2 apart
  have length' : φ b - φ a ≠ 0 := sub_ne_zero.2 (h.ne ha hb apart)
  have position : (φ x - φ a) / (φ b - φ a) * (D b)⁻¹ = (D x)⁻¹ * ((x - a) / (b - a)) := by
    rw [h.chord ha hx, h.chord ha hb]
    field_simp
  have rest : (1 - (φ x - φ a) / (φ b - φ a)) * (D a)⁻¹
      = (D x)⁻¹ * (1 - (x - a) / (b - a)) := by
    rw [one_sub_div length', one_sub_div length, sub_sub_sub_cancel_right,
        sub_sub_sub_cancel_right, h.chord hx hb, h.chord ha hb]
    field_simp
  simp only [mix, smul_add, smul_smul, position, rest]

end Fractional

/-- **Forms that correspond at the stretches around one span correspond everywhere.** -/
theorem PolarForm.eq_of_stretches_fractional {φ D : K → K} {slope scale : K}
    (h : Fractional φ D slope) {p : Nat} {f g : PolarForm K V p} {u : Nat → K}
    (hu : Separated u p) (nonzero : ∀ r < 2 * p, D (u r) ≠ 0)
    (same : ∀ j ≤ p, g ((stretch u j p).map φ)
      = (scale / ((stretch u j p).map D).prod) • f (stretch u j p))
    {s : Multiset K} (card : s.card = p) (hs : ∀ x ∈ s, D x ≠ 0) :
    g (s.map φ) = (scale / (s.map D).prod) • f s := by
  induction p generalizing u s scale with
  | zero =>
      obtain rfl : s = 0 := Multiset.card_eq_zero.1 card
      exact same 0 le_rfl
  | succ p ih =>
      obtain ⟨x, member⟩ : ∃ x, x ∈ s := Multiset.card_pos_iff_exists_mem.1 (by omega)
      obtain ⟨s, rfl⟩ := Multiset.exists_cons_of_mem member
      have hx : D x ≠ 0 := hs x (Multiset.mem_cons_self x s)
      -- with `x` held, the stretches of one knot less correspond, up to the denominator at `x`
      have held : (g.hold {φ x} (by simp) : PolarForm K V p) (s.map φ)
          = (scale / D x / (s.map D).prod) • (f.hold {x} (by simp) : PolarForm K V p) s := by
        refine ih hu.shift (fun r hr => nonzero (r + 1) (by omega)) (fun j hj => ?_)
          (by simpa using card) fun y hy => hs y (Multiset.mem_cons_of_mem hy)
        have ends := hu.ne_ends hj
        have first := nonzero j (by omega)
        have last := nonzero (j + 1 + p) (by omega)
        have left := same j (by omega)
        have right := same (j + 1) (by omega)
        rw [stretch_succ, Multiset.map_cons, Multiset.map_cons, Multiset.prod_cons] at left
        rw [stretch_succ_right, Multiset.map_cons, Multiset.map_cons, Multiset.prod_cons] at right
        rw [hold_apply, hold_apply, stretch_shift, Multiset.singleton_add, Multiset.singleton_add,
            g.between (by simp) (h.ne first last ends), f.between (by simp) ends, left, right,
            div_mul_eq_div_div_swap, div_mul_eq_div_div_swap, div_eq_inv_mul _ (D (u j)),
            div_eq_inv_mul _ (D (u (j + 1 + p))), mul_smul, mul_smul,
            h.mix_eq first last hx ends, div_right_comm, div_eq_inv_mul _ (D x), mul_smul]
        simp only [mix, smul_add, smul_comm _ (scale / ((stretch u (j + 1) p).map D).prod)]
      rw [hold_apply, hold_apply, Multiset.singleton_add, Multiset.singleton_add] at held
      rw [Multiset.map_cons, Multiset.map_cons, Multiset.prod_cons, held, div_div]

/-! ## §2. The map of a curve. -/

namespace Curve

variable [LinearOrder K] {c e : Curve K}

/-- The denominator of the map at a parameter of a curve. -/
def fractionalDivisor (factor : K) (domain : K × K) (k : K) : K :=
  fractionalDenominator factor ((k - domain.1) / (domain.2 - domain.1))

theorem fractional_fractionalMap {factor : K} (nonzero : factor ≠ 0) {domain : K × K}
    (lt : domain.1 < domain.2) :
    Fractional (fractionalMap factor domain) (fractionalDivisor factor domain) factor := by
  have length : domain.2 - domain.1 ≠ 0 := sub_ne_zero.2 lt.ne'
  refine ⟨nonzero, fun {x y} hx hy => ?_⟩
  have position : ∀ k, k = domain.1 + (domain.2 - domain.1)
      * ((k - domain.1) / (domain.2 - domain.1)) := fun k => by
    rw [mul_div_cancel₀ _ length, add_sub_cancel]
  unfold fractionalDivisor at hx hy ⊢
  unfold fractionalMap
  dsimp only
  conv_rhs => rw [position x, position y]
  simp only [add_sub_cancel_left, mul_div_cancel_left₀ _ length]
  generalize (x - domain.1) / (domain.2 - domain.1) = a at hx ⊢
  generalize (y - domain.1) / (domain.2 - domain.1) = b at hy ⊢
  field_simp
  unfold fractionalDenominator
  ring

@[simp] theorem isRational_applyFractional (factor : K) :
    (c.applyFractional factor).isRational = c.isRational :=
  ControlPoints.isRational_withVectors _ _

theorem fractionalDivisor_pos [IsStrictOrderedRing K] {factor : K} (pos : 0 < factor)
    {domain : K × K} (lt : domain.1 < domain.2) {k : K} (low : domain.1 ≤ k)
    (high : k ≤ domain.2) : 0 < fractionalDivisor factor domain k :=
  have length : 0 < domain.2 - domain.1 := sub_pos.2 lt
  fractionalDenominator_pos pos (div_nonneg (sub_nonneg.2 low) length.le)
    (div_le_one_of_le₀ (sub_le_sub_right high _) length.le)

/-- The factor of a control vector is the product of the denominators at its knots, inverted. -/
theorem fractionalFactor_eq (factor : K) (us : List K) :
    fractionalFactor factor us = 1 / (us.map (fractionalDenominator factor)).prod := by
  suffices fold : ∀ acc : K, us.foldl (fun acc u => acc / ((factor - 1) * u + 1)) acc
      = acc / (us.map (fractionalDenominator factor)).prod from fold 1
  induction us with
  | nil => simp
  | cons u us ih =>
      intro acc
      rw [List.foldl_cons, ih, List.map_cons, List.prod_cons, div_div]
      rfl

/-- The knots of a control vector, in compact form. -/
theorem stretch_padded {j : Nat} (hj : j + c.degree ≤ c.knots.size) :
    stretch c.spline.knots.knot (j + 1) c.degree
      = ((c.knots.values.drop j).take c.degree : List K) := by
  rw [← stretch_eq_coe c.knots hj]
  refine stretch_congr fun r hr => ?_
  rw [Nat.add_right_comm]
  exact KnotVector.knot_padded _ _ (by omega)

/-- A control vector is divided by the denominators at its knots. -/
theorem Sound.getD_applyFractional (h : c.Sound) (factor : K) {j : Nat} (hj : j < c.pointCount) :
    (c.applyFractional factor).points.vectors.getD j []
      = Point.scale (c.points.vectors.getD j [])
        (1 / ((stretch c.spline.knots.knot (j + 1) c.degree).map
          (fractionalDivisor factor c.domain)).prod) := by
  obtain ⟨two, enough, size, degree⟩ := h.counts
  have scaled : (c.applyFractional factor).points.vectors.getD j []
      = Point.scale (c.points.vectors.getD j [])
        (fractionalFactor factor ((c.normalizedKnots.drop j).take c.degree)) := by
    show (ControlPoints.withVectors _ (List.mapIdx _ c.points.vectors)).vectors.getD j [] = _
    rw [ControlPoints.vectors_withVectors,
        List.getD_eq_getElem _ _ (by rw [List.length_mapIdx]; exact hj), List.getElem_mapIdx,
        List.getD_eq_getElem _ _ hj]
    rfl
  rw [scaled, fractionalFactor_eq, stretch_padded (by omega), Multiset.map_coe, Multiset.prod_coe,
      show c.normalizedKnots = c.knots.values.map
        fun k => (k - c.domain.1) / (c.domain.2 - c.domain.1) from rfl,
      ← List.map_drop, ← List.map_take, List.map_map]
  rfl

/-- The padded knots, but for the two at the ends, move along. -/
theorem knot_applyFractional {factor : K} (nonzero : factor ≠ 0) (lt : c.domain.1 < c.domain.2)
    {i : Nat} (low : 1 ≤ i) (high : i ≤ c.knots.size) :
    (c.applyFractional factor).spline.knots.knot i
      = fractionalMap factor c.domain (c.spline.knots.knot i) := by
  obtain ⟨i, rfl⟩ : ∃ m, i = m + 1 := ⟨i - 1, by omega⟩
  show ((c.applyFractional factor).knots.padded _).knot (i + 1)
    = fractionalMap factor c.domain ((c.knots.padded _).knot (i + 1))
  rw [knots_applyFractional factor lt nonzero,
      KnotVector.knot_padded _ _ (by rw [KnotVector.size_map]; omega),
      KnotVector.knot_padded _ _ (by omega), KnotVector.knot_map _ _ (by omega)]

section Values

variable [IsStrictOrderedRing K]

omit [IsStrictOrderedRing K] in
theorem Within.knot_padded (within : c.Within) {i : Nat} (low : 1 ≤ i) (high : i ≤ c.knots.size) :
    c.domain.1 ≤ c.spline.knots.knot i ∧ c.spline.knots.knot i ≤ c.domain.2 := by
  obtain ⟨i, rfl⟩ : ∃ m, i = m + 1 := ⟨i - 1, by omega⟩
  have same : c.spline.knots.knot (i + 1) = c.knots.knot i :=
    KnotVector.knot_padded _ _ (by omega)
  rw [same]
  exact within _ (c.knots.knot_mem (by omega))

/-- The mapped parameter lies on the span with the mapped ends. -/
theorem Sound.onSpan_applyFractional (h : c.Sound) (within : c.Within)
    (lt : c.domain.1 < c.domain.2) {factor : K} (pos : 0 < factor) {i : Nat} (hi : c.degree ≤ i)
    (hi' : i < c.pointCount) {t : K} (on : c.spline.knots.onSpan c.domain.2 t i = true) :
    (c.applyFractional factor).spline.knots.onSpan (c.applyFractional factor).domain.2
      (fractionalMap factor c.domain t) i = true := by
  obtain ⟨two, enough, size, degree⟩ := h.counts
  have finish : (c.applyFractional factor).domain.2 = fractionalMap factor c.domain c.domain.2 := by
    rw [(repointed_applyFractional h pos lt).domain, h.domain_mapKnots]
  have le : ∀ {a b}, c.domain.1 ≤ a → a ≤ b → b ≤ c.domain.2 →
      fractionalMap factor c.domain a ≤ fractionalMap factor c.domain b := fun ha hab hb =>
    hab.eq_or_lt.elim (fun same => same ▸ le_rfl) fun less =>
        (fractionalMap_lt pos lt ha less hb).le
  obtain ⟨start, start'⟩ := within.knot_padded (i := i) (by omega) (by omega)
  obtain ⟨next, next'⟩ := within.knot_padded (i := i + 1) (by omega) (by omega)
  rw [KnotVector.onSpan_iff, finish, knot_applyFractional pos.ne' lt (by omega) (by omega),
      knot_applyFractional pos.ne' lt (by omega) (by omega)]
  rcases KnotVector.onSpan_iff.1 on with ⟨low, high, before⟩ | ⟨low, high, rfl⟩
  · exact .inl ⟨le start low before.le, fractionalMap_lt pos lt (start.trans low) high next',
      fractionalMap_lt pos lt (start.trans low) before le_rfl⟩
  · exact .inr ⟨fractionalMap_lt pos lt start low le_rfl, by rw [high], rfl⟩

omit [IsStrictOrderedRing K] in
/-- The forms of a span and of its image correspond at the stretches of their knots. -/
theorem Sound.form_applyFractional (h : c.Sound) (lt : c.domain.1 < c.domain.2) {factor : K}
    (nonzero : factor ≠ 0)
    {F G : Pieces K c.vectorSize c.degree} (follows : Follows c.spline.knots c.points.vectors F)
    (follows' : Follows (c.applyFractional factor).spline.knots
      (c.applyFractional factor).points.vectors G)
    {i : Nat} (hi : c.degree ≤ i) (hi' : i < c.pointCount) {s s' : K}
    (low : c.spline.knots.knot i < s) (high : s < c.spline.knots.knot (i + 1))
    (low' : (c.applyFractional factor).spline.knots.knot i < s')
    (high' : s' < (c.applyFractional factor).spline.knots.knot (i + 1)) {j : Nat}
    (hj : j ≤ c.degree) :
    G s' ((stretch (fun r => c.spline.knots.knot (i - c.degree + 1 + r)) j c.degree).map
        (fractionalMap factor c.domain))
      = (1 / ((stretch (fun r => c.spline.knots.knot (i - c.degree + 1 + r)) j c.degree).map
          (fractionalDivisor factor c.domain)).prod)
        • F s (stretch (fun r => c.spline.knots.knot (i - c.degree + 1 + r)) j c.degree) := by
  obtain ⟨two, enough, size, degree⟩ := h.counts
  have total := size_padded_knots h
  have points : c.points.vectors.length = c.pointCount := rfl
  have inside : i < (c.applyFractional factor).pointCount := by
    rwa [pointCount_applyFractional]
  have old : stretch (fun r => c.spline.knots.knot (i - c.degree + 1 + r)) j c.degree
      = stretch c.spline.knots.knot (i - c.degree + j + 1) c.degree :=
    stretch_congr fun r _ => congrArg _ (by omega)
  have new : (stretch c.spline.knots.knot (i - c.degree + j + 1) c.degree).map
        (fractionalMap factor c.domain)
      = stretch (c.applyFractional factor).spline.knots.knot (i - c.degree + j + 1) c.degree := by
    rw [stretch_map]
    exact stretch_congr fun r hr =>
      (knot_applyFractional nonzero lt (by omega) (by omega)).symm
  refine Point.ofVec_injective ?_
  rw [old, new, ← follows' i hi inside s' low' high' (i - c.degree + j) (by omega) (by omega),
      h.getD_applyFractional factor (by omega),
      follows i hi hi' s low high (i - c.degree + j) (by omega) (by omega), Point.scale_ofVec]

/-- **At the mapped parameter stands the vector of the curve, up to a factor.** -/
theorem Sound.definedVector_applyFractional (h : c.Sound) (within : c.Within)
    (lt : c.domain.1 < c.domain.2) {factor : K} (pos : 0 < factor) {t : K}
    (h₀ : c.domain.1 ≤ t) (h₁ : t ≤ c.domain.2) :
    (c.applyFractional factor).definedVector (fractionalMap factor c.domain t)
      = Point.scale (c.definedVector t) (1 / fractionalDivisor factor c.domain t ^ c.degree) := by
  obtain ⟨two, enough, size, degree⟩ := h.counts
  have total := size_padded_knots h
  have points : c.points.vectors.length = c.pointCount := rfl
  have after := h.applyFractional within lt pos
  have fits : (c.applyFractional factor).vectorSize = c.vectorSize := by
    rw [vectorSize, isRational_applyFractional]
    rfl
  obtain ⟨F, follows⟩ := h.exists_follows rfl rfl
  obtain ⟨G, follows'⟩ := after.exists_follows fits (p := c.degree) rfl
  obtain ⟨i, hi, hi', on⟩ := h.exists_onSpan lt h₀ h₁
  have on' := h.onSpan_applyFractional within lt pos hi hi' on
  have inside : i < (c.applyFractional factor).pointCount := by
    rwa [pointCount_applyFractional]
  obtain ⟨s, low, high⟩ := exists_between (KnotVector.knot_lt_of_onSpan on)
  obtain ⟨s', low', high'⟩ := exists_between (KnotVector.knot_lt_of_onSpan on')
  have divisor : ∀ k, c.domain.1 ≤ k → k ≤ c.domain.2 →
      fractionalDivisor factor c.domain k ≠ 0 := fun k low high =>
    (fractionalDivisor_pos pos lt low high).ne'
  -- forms that correspond at the stretches of a span correspond on its diagonal
  have diagonal := PolarForm.eq_of_stretches_fractional (fractional_fractionalMap pos.ne' lt)
    (h.ordered_padded.separated hi (by omega) (KnotVector.knot_lt_of_onSpan on))
    (fun r hr => by
      obtain ⟨below, above⟩ := within.knot_padded (i := i - c.degree + 1 + r) (by omega) (by omega)
      exact divisor _ below above)
    (fun j => h.form_applyFractional lt pos.ne' follows follows' hi hi' low high low' high')
    (s := Multiset.replicate c.degree t) (Multiset.card_replicate _ _)
    fun x hx => Multiset.eq_of_mem_replicate hx ▸ divisor t h₀ h₁
  rw [Multiset.map_replicate, Multiset.map_replicate, Multiset.prod_replicate] at diagonal
  rw [h.definedVector_eq rfl rfl follows hi hi' on low high,
      after.definedVector_eq fits (p := c.degree) rfl follows' hi inside on' low' high', diagonal,
      Point.scale_ofVec]

/-- **At the mapped parameter a rational curve has the location of the parameter.** -/
theorem Sound.definedAt_applyFractional (h : c.Sound) (within : c.Within)
    (lt : c.domain.1 < c.domain.2) (rational : c.isRational = true) {factor : K} (pos : 0 < factor)
    {t : K} (h₀ : c.domain.1 ≤ t) (h₁ : t ≤ c.domain.2) :
    (c.applyFractional factor).definedAt (fractionalMap factor c.domain t) = c.definedAt t := by
  have factored : 1 / fractionalDivisor factor c.domain t ^ c.degree ≠ 0 :=
    one_div_ne_zero (pow_ne_zero _ (fractionalDivisor_pos pos lt h₀ h₁).ne')
  rw [definedAt, definedAt, isRational_applyFractional, rational, if_pos rfl, if_pos rfl,
      h.definedVector_applyFractional within lt pos h₀ h₁, Point.dehomogenize_scale factored]

/-! ## §3. Reparameterization. -/

omit [IsStrictOrderedRing K] in
/-- An end that is clamped stays so under a map of the knots. -/
theorem Sound.isClamped_mapKnots (h : c.Sound) (f : K → K) {side : CurveEnd}
    (clamped : c.isClamped side = true) : (c.mapKnots f).isClamped side = true := by
  obtain ⟨two, enough, size, degree⟩ := h.counts
  cases side with
  | start =>
      have same : c.knots.knot 0 = c.knots.knot (c.order - 2) := eq_of_beq clamped
      refine beq_iff_eq.2 ?_
      show (c.knots.map f).knot 0 = (c.knots.map f).knot (c.order - 2)
      rw [KnotVector.knot_map _ _ (by omega), KnotVector.knot_map _ _ (by omega), same]
  | finish =>
      have same : c.knots.knot (c.knots.size - 1) = c.knots.knot (c.knots.size + 1 - c.order) :=
        eq_of_beq clamped
      refine beq_iff_eq.2 ?_
      show (c.knots.map f).knot ((c.knots.map f).size - 1)
        = (c.knots.map f).knot ((c.knots.map f).size + 1 - c.order)
      rw [KnotVector.size_map, KnotVector.knot_map _ _ (by omega),
          KnotVector.knot_map _ _ (by omega), same]

omit [IsStrictOrderedRing K] in
/-- The ends of the domain stay. -/
theorem domain_applyFractional (h : c.Sound) {factor : K} (pos : 0 < factor)
    (lt : c.domain.1 < c.domain.2) : (c.applyFractional factor).domain = c.domain := by
  have length : c.domain.2 - c.domain.1 ≠ 0 := sub_ne_zero.2 lt.ne'
  rw [(repointed_applyFractional h pos lt).domain, h.domain_mapKnots]
  refine Prod.ext ?_ ?_
  · simp [fractionalMap]
  · simp [fractionalMap, fractionalDenominator, div_self length, div_self pos.ne']

/-- **A reparameterized curve follows its map.**  Order, number of control points and domain
stay, the curve is rational and clamped with positive weights and knots in order, and its value
at the mapped parameter is that of the curve at the parameter. -/
theorem reparameterize_follows_map [Precision K] [Precision.Exact K] {factor : K}
    (valid : c.isValid = true) (pos : 0 < factor) (other : factor ≠ 1) :
    ∃ e, c.reparameterize factor = .ok e ∧ e.dimension = c.dimension ∧ e.order = c.order
      ∧ e.pointCount = c.pointCount ∧ e.domain = c.domain ∧ e.isRational = true
      ∧ e.isClamped .start = true ∧ e.isClamped .finish = true ∧ e.knots.isNonDecreasing = true
      ∧ (∀ w ∈ e.points.weights, 0 < w)
      ∧ ∀ t u, c.domain.1 ≤ t → t ≤ c.domain.2 →
          u = (t - c.domain.1) / (c.domain.2 - c.domain.1) →
          e.definedAt (c.domain.1
              + (c.domain.2 - c.domain.1) * (factor * u / ((factor - 1) * u + 1)))
            = c.definedAt t := by
  have regular := regular_of_isValid valid
  have lt := regular.domain_lt
  obtain ⟨b, clamped, sound, keeps, start, finish, count, -⟩ := regular.clampEnds
  obtain ⟨-, -, within⟩ := regular.toSound.within_clampEnds lt clamped
  have lt' : b.domain.1 < b.domain.2 := keeps.domain.symm ▸ lt
  have lifted : b.makeRational.Sound := sound.makeRational
  have ok : c.reparameterize factor = .ok (b.makeRational.applyFractional factor) := by
    unfold reparameterize
    rw [if_pos ((Scalar.isWeight_iff factor).2 pos), if_neg (by simpa using other), clamped]
    rfl
  have after := regular.reparameterize ok
  have repointed := repointed_applyFractional lifted pos lt'
  have same : b.makeRational.domain = c.domain := keeps.domain
  refine ⟨_, ok, keeps.dimension, keeps.order, ?_, ?_, ?_, ?_, ?_, ?_, after.weight_pos, ?_⟩
  · rw [pointCount_applyFractional, pointCount_makeRational, count]
  · rw [domain_applyFractional lifted pos lt', same]
  · rw [isRational_applyFractional, isRational_makeRational]
  · exact (repointed.isClamped .start).trans (lifted.isClamped_mapKnots _ start)
  · exact (repointed.isClamped .finish).trans (lifted.isClamped_mapKnots _ finish)
  · exact (KnotVector.isNonDecreasing_iff _).2 after.ordered
  · rintro t u h₀ h₁ rfl
    have low : b.makeRational.domain.1 ≤ t := same ▸ h₀
    have high : t ≤ b.makeRational.domain.2 := same ▸ h₁
    calc (b.makeRational.applyFractional factor).definedAt (c.domain.1 + _)
        = (b.makeRational.applyFractional factor).definedAt
            (fractionalMap factor b.makeRational.domain t) := by
          rw [same]
          rfl
      _ = b.makeRational.definedAt t := lifted.definedAt_applyFractional within lt'
          (isRational_makeRational b) pos low high
      _ = b.definedAt t := sound.definedAt_makeRational lt' low high
      _ = c.definedAt t := keeps.definedAt_eq regular.toSound sound lt h₀ h₁

/-- On the domain `[1, 3]`, twice the slope at the start takes the middle to two thirds. -/
theorem reparameterize_follows_openStart :
    openStart.isValid = true ∧ (0 : ℚ) < 2 ∧ (2 : ℚ) ≠ 1
      ∧ ∃ e, openStart.reparameterize 2 = .ok e ∧ e.domain = (1, 3)
        ∧ e.definedAt (7 / 3) = openStart.definedAt 2 := by
  have valid : openStart.isValid = true := by decide +kernel
  have pos : (0 : ℚ) < 2 := by norm_num
  have other : (2 : ℚ) ≠ 1 := by norm_num
  obtain ⟨e, ok, -, -, -, domain, -, -, -, -, -, value⟩ :=
    reparameterize_follows_map valid pos other
  refine ⟨valid, pos, other, e, ok, domain, ?_⟩
  have half := value 2 (1 / 2) (by decide +kernel) (by decide +kernel) (by decide +kernel)
  rw [← half]
  exact congrArg e.definedAt (by decide +kernel)

end Values

end Curve

end RationalSpline
