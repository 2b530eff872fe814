/-
  RationalSpline.Proofs.UnitEnds
  ──────────────────────────────
  UNIT WEIGHTS AT THE ENDS OF BÉZIER SPANS.

  Points `Pⱼ` of a segment that are scaled by falling powers `λ / ρʲ` give the vector

      ∑ C(p, j) uʲ (1 - u)ᵖ⁻ʲ λ / ρʲ Pⱼ  =  λ (d / ρ)ᵖ · ∑ C(p, j) vʲ (1 - v)ᵖ⁻ʲ Pⱼ

  with `d = u + ρ (1 - u)` and `v = u / d`: the same location at another parameter.  With
  `λ = 1 / w₀` and `ρ` the root of `wₚ / w₀` both ends get the weight 1, and the scaling of
  a corner is the same seen from either of its segments.
-/
import RationalSpline.Proofs.ClosedSpans
import RationalSpline.Proofs.Placement
import RationalSpline.Proofs.SplitCurve
import RationalSpline.Proofs.Uniqueness

namespace RationalSpline

variable {K : Type} [Field K] [LinearOrder K]

/-! ## §1. The change of parameter. -/

/-- The increasing map of `[0, 1]` onto itself that has the slope `1 / ratio` at 0. -/
def retime (ratio u : K) : K := u / (u + ratio * (1 - u))

section Retime

variable [IsStrictOrderedRing K] {ratio : K}

theorem retime_denominator_pos (pos : 0 < ratio) {u : K} (h₀ : 0 ≤ u) (h₁ : u ≤ 1) :
    0 < u + ratio * (1 - u) := by
  rcases h₁.lt_or_eq with lt | rfl
  · exact add_pos_of_nonneg_of_pos h₀ (mul_pos pos (sub_pos.2 lt))
  · simp

theorem retime_mem (pos : 0 < ratio) {u : K} (h₀ : 0 ≤ u) (h₁ : u ≤ 1) :
    0 ≤ retime ratio u ∧ retime ratio u ≤ 1 := by
  have denominator := retime_denominator_pos pos h₀ h₁
  refine ⟨div_nonneg h₀ denominator.le, (div_le_one denominator).2 ?_⟩
  exact le_add_of_nonneg_right (mul_nonneg pos.le (sub_nonneg.2 h₁))

theorem one_sub_retime (pos : 0 < ratio) {u : K} (h₀ : 0 ≤ u) (h₁ : u ≤ 1) :
    1 - retime ratio u = ratio * (1 - u) / (u + ratio * (1 - u)) := by
  have denominator := retime_denominator_pos pos h₀ h₁
  rw [retime, eq_div_iff denominator.ne', sub_mul, div_mul_cancel₀ _ denominator.ne']
  ring

/-- The inverse of the map is one of its kind. -/
theorem retime_retime (pos : 0 < ratio) {u : K} (h₀ : 0 ≤ u) (h₁ : u ≤ 1) :
    retime ratio (retime ratio⁻¹ u) = u := by
  have denominator := retime_denominator_pos (inv_pos.2 pos) h₀ h₁
  have nonzero := pos.ne'
  rw [retime, one_sub_retime (inv_pos.2 pos) h₀ h₁, retime, mul_div_assoc', ← mul_assoc,
      mul_inv_cancel₀ nonzero, one_mul,
      ← add_div, div_div_div_cancel_right₀ denominator.ne', add_sub_cancel, div_one]

/-- The map goes from the start to the end. -/
theorem retime_lt (pos : 0 < ratio) {u v : K} (h₀ : 0 ≤ u) (lt : u < v) (h₁ : v ≤ 1) :
    retime ratio u < retime ratio v := by
  have du := retime_denominator_pos pos h₀ (lt.le.trans h₁)
  have dv := retime_denominator_pos pos (h₀.trans lt.le) h₁
  rw [retime, retime, div_lt_div_iff₀ du dv]
  nlinarith [mul_pos pos (sub_pos.2 lt)]

end Retime

/-! ## §2. Forms whose values are scaled by falling powers. -/

/-- **Falling powers change the parameter and a factor.** -/
theorem PolarForm.rescale {V : Type} [AddCommGroup V] [Module K V] [IsStrictOrderedRing K]
    {p : Nat} {f g : PolarForm K V p} {a b scale ratio : K} (pos : 0 < ratio)
    (scaled : ∀ r ≤ p, g (Multiset.replicate (p - r) a + Multiset.replicate r b)
      = (scale / ratio ^ r) • f (Multiset.replicate (p - r) a + Multiset.replicate r b))
    {u : K} (h₀ : 0 ≤ u) (h₁ : u ≤ 1) :
    g (Multiset.replicate p (mix u a b))
      = (scale * ((u + ratio * (1 - u)) / ratio) ^ p)
        • f (Multiset.replicate p (mix (retime ratio u) a b)) := by
  have denominator := retime_denominator_pos pos h₀ h₁
  have left := g.expand u a b p (s := 0) (by simp)
  have right := f.expand (retime ratio u) a b p (s := 0) (by simp)
  simp only [add_zero] at left right
  rw [left, right, Finset.smul_sum]
  refine Finset.sum_congr rfl fun i hi => ?_
  have total := Finset.HasAntidiagonal.mem_antidiagonal.1 hi
  rw [show i.2 = p - i.1 by omega, scaled i.1 (by omega), smul_comm _ (p.choose i.1), smul_smul,
      smul_smul, one_sub_retime pos h₀ h₁, retime]
  generalize u + ratio * (1 - u) = d at denominator
  congr 2
  have power : ∀ x : K, x ^ p = x ^ i.1 * x ^ (p - i.1) := fun x => by
    rw [← pow_add]
    congr 1
    omega
  have nonzero := pos.ne'
  have nonzero' := denominator.ne'
  rw [power, div_pow, div_pow, div_pow, div_pow, mul_pow]
  field_simp

namespace Curve

variable {c e : Curve K}

/-! ## §3. The scaled points. -/

theorem getD_scaleSegment {ratio factor : K} {ps : List (Point K)} {r : Nat} (hr : r < ps.length) :
    (scaleSegment ratio factor ps).getD r []
      = Point.scale (ps.getD r []) (factor / ratio ^ (r + 1)) := by
  induction ps generalizing factor r with
  | nil => simp at hr
  | cons p ps ih =>
      rw [scaleSegment]
      cases r with
      | zero => simp
      | succ r =>
          rw [List.getD_cons_succ, List.getD_cons_succ, ih (Nat.lt_of_succ_lt_succ hr), div_div,
              ← pow_succ']

variable [Analytic K]

/-- The ratio by which the weights of a segment are changed. -/
def segmentRatio (c : Curve K) (k : Nat) : K :=
  Analytic.pow (c.points.weight (c.degree * (k + 1)) / c.points.weight (c.degree * k))
    (1 / (c.degree : K))

theorem getD_unitCorners {degree segments i k r : Nat} {weights : List K} {ps : List (Point K)}
    (length : ps.length = degree * segments) (hk : k < segments) (hr : r < degree) :
    (unitCorners degree weights segments i ps).getD (degree * k + r) []
      = Point.scale (ps.getD (degree * k + r) [])
        (1 / weights.getD (i + degree * k) 0
          / Analytic.pow (weights.getD (i + degree * (k + 1)) 0 / weights.getD (i + degree * k) 0)
            (1 / (degree : K)) ^ (r + 1)) := by
  induction segments generalizing i k ps with
  | zero => omega
  | succ segments ih =>
      rw [Nat.mul_succ] at length
      have first : (ps.take degree).length = degree := by
        rw [List.length_take]
        omega
      rw [unitCorners]
      cases k with
      | zero =>
          rw [Nat.mul_zero, Nat.zero_add, List.getD_append _ _ _ _ (by
            rw [length_scaleSegment]
            omega), getD_scaleSegment (by omega)]
          simp [List.getD_eq_getElem?_getD, hr]
      | succ k =>
          have next : ∀ j, i + degree + degree * j = i + degree * (j + 1) := fun j => by
            rw [Nat.mul_succ]
            omega
          have behind : degree * (k + 1) + r = degree + (degree * k + r) := by
            rw [Nat.mul_succ]
            omega
          rw [behind, List.getD_append_right _ _ _ _ (by rw [length_scaleSegment]; omega),
              length_scaleSegment, first, Nat.add_sub_cancel_left,
              ih (by rw [List.length_drop]; omega) (by omega), next, next]
          simp only [List.getD_eq_getElem?_getD, List.getElem?_drop]

omit [Field K] [LinearOrder K] [Analytic K] in
/-- A rational curve with control points has a first one. -/
theorem exists_points_eq_cons (rational : c.isRational = true) (pos : 0 < c.pointCount) :
    ∃ x xs, c.points = .homogeneous (x :: xs) := by
  cases points : c.points with
  | cartesian xs => simp [isRational, points, ControlPoints.isRational] at rational
  | homogeneous xs =>
      cases xs with
      | nil => simp [pointCount, points, ControlPoints.length, ControlPoints.vectors] at pos
      | cons x xs => exact ⟨x, xs, rfl⟩

omit [Analytic K] in
theorem getD_weights {j : Nat} (hj : j < c.pointCount) :
    c.points.weights.getD j 0 = c.points.weight j := by
  have hj' : j < c.points.length := hj
  simp [ControlPoints.weights, List.getD_eq_getElem?_getD, hj']

/-- All points but the first are scaled as points of the segment that they do not begin. -/
theorem getD_unitEnds_succ {x : Point K} {xs : List (Point K)}
    (points : c.points = .homogeneous (x :: xs)) (degree : 0 < c.degree) {segments : Nat}
    (count : c.pointCount = c.degree * segments + 1) {k r : Nat} (hk : k < segments)
    (hr : r < c.degree) :
    c.unitEnds.points.vectors.getD (c.degree * k + (r + 1)) []
      = Point.scale (c.points.vectors.getD (c.degree * k + (r + 1)) [])
        (1 / c.points.weight (c.degree * k) / c.segmentRatio k ^ (r + 1)) := by
  have length : xs.length = c.degree * segments := by
    have total : c.pointCount = xs.length + 1 := by
      rw [pointCount, points]
      rfl
    omega
  have old : c.points.vectors = x :: xs := by rw [points]; rfl
  have new : c.unitEnds.points.vectors
      = Point.divide x x.weight :: unitCorners c.degree c.points.weights segments 0 xs := by
    rw [← Nat.mul_div_cancel_left segments degree, ← length, unitEnds, points]
    rfl
  have corner : ∀ j ≤ segments, c.degree * j < c.pointCount := fun j hj => by
    have := Nat.mul_le_mul_left c.degree hj
    omega
  rw [new, old, ← Nat.add_assoc, List.getD_cons_succ, List.getD_cons_succ,
      getD_unitCorners length hk hr, Nat.zero_add, Nat.zero_add, getD_weights (corner k hk.le),
      getD_weights (corner (k + 1) hk)]
  rfl

/-- **The points of a segment are scaled by falling powers.**  The start of a segment is scaled
as the end of the one before, which comes to the same. -/
theorem getD_unitEnds (rational : c.isRational = true) (degree : 0 < c.degree) {segments : Nat}
    (count : c.pointCount = c.degree * segments + 1)
    (nonzero : ∀ k < segments, c.points.weight (c.degree * k) ≠ 0)
    (roots : ∀ k < segments, c.segmentRatio k ^ c.degree
      = c.points.weight (c.degree * (k + 1)) / c.points.weight (c.degree * k))
    {k r : Nat} (hk : k < segments) (hr : r ≤ c.degree) :
    c.unitEnds.points.vectors.getD (c.degree * k + r) []
      = Point.scale (c.points.vectors.getD (c.degree * k + r) [])
        (1 / c.points.weight (c.degree * k) / c.segmentRatio k ^ r) := by
  obtain ⟨x, xs, points⟩ := exists_points_eq_cons rational (by omega)
  rcases r with _ | r
  · rw [pow_zero, div_one, Nat.add_zero]
    rcases k with _ | k
    · have new : c.unitEnds.points.vectors.getD 0 [] = Point.divide x x.weight := by
        rw [unitEnds, points]
        rfl
      rw [Nat.mul_zero, new, points, show (ControlPoints.homogeneous (x :: xs)).weight 0 = x.weight
        from rfl, one_div]
      exact List.map_congr_left fun y _ => div_eq_mul_inv y _
    · have last := getD_unitEnds_succ points degree count (k := k) (by omega)
        (show c.degree - 1 < c.degree by omega)
      rw [show c.degree - 1 + 1 = c.degree by omega, roots k (by omega), ← Nat.mul_succ] at last
      have first := nonzero k (by omega)
      rw [last]
      congr 1
      field_simp
  · exact getD_unitEnds_succ points degree count hk hr

@[simp] theorem isRational_unitEnds (c : Curve K) : c.unitEnds.isRational = c.isRational := by
  obtain ⟨dimension, order, points, knots⟩ := c
  rcases points with points | (_ | _) <;> rfl

/-! ## §4. The curve with unit weights. -/

section Traces

variable [IsStrictOrderedRing K] {boundaries : List K} {segments : Nat}

/-- The power used is a root of the degree. -/
def Rooted (c : Curve K) : Prop := ∀ x : K, 0 < x →
  0 < Analytic.pow x (1 / (c.degree : K)) ∧ Analytic.pow x (1 / (c.degree : K)) ^ c.degree = x

/-- The ratio of a segment and the roots it comes from. -/
theorem Regular.segmentRatio_spec (h : c.Regular) (segmented : Segmented c boundaries segments)
    (rooted : c.Rooted) {k : Nat} (hk : k < segments) :
    0 < c.points.weight (c.degree * k) ∧ 0 < c.points.weight (c.degree * (k + 1))
      ∧ 0 < c.segmentRatio k ∧ c.segmentRatio k ^ c.degree
        = c.points.weight (c.degree * (k + 1)) / c.points.weight (c.degree * k) := by
  have positive := h.positive
  have inside : ∀ j ≤ segments, c.degree * j < c.points.length := fun j hj => by
    have room := Nat.mul_le_mul_left c.degree hj
    have count := segmented.count
    show _ < c.pointCount
    omega
  have first := positive.weight_pos (inside k hk.le)
  have last := positive.weight_pos (inside (k + 1) hk)
  exact ⟨first, last, rooted _ (div_pos last first)⟩

/-- The scaled points of a regular curve. -/
theorem Regular.getD_unitEnds (h : c.Regular) (rational : c.isRational = true)
    (segmented : Segmented c boundaries segments) (rooted : c.Rooted) {k r : Nat}
    (hk : k < segments) (hr : r ≤ c.degree) :
    c.unitEnds.points.vectors.getD (c.degree * k + r) []
      = Point.scale (c.points.vectors.getD (c.degree * k + r) [])
        (1 / c.points.weight (c.degree * k) / c.segmentRatio k ^ r) := by
  exact Curve.getD_unitEnds rational h.toSound.degree_pos segmented.count
    (fun k hk => (h.segmentRatio_spec segmented rooted hk).1.ne')
    (fun k hk => (h.segmentRatio_spec segmented rooted hk).2.2.2) hk hr

/-- **With unit weights at the ends of its segments a curve stays regular.** -/
theorem Regular.unitEnds (h : c.Regular) (rational : c.isRational = true)
    (segmented : Segmented c boundaries segments) (pos : 0 < segments) (rooted : c.Rooted) :
    Repointed c c.unitEnds ∧ c.unitEnds.Regular := by
  have degree := h.toSound.degree_pos
  have segments' : c.degree ∣ c.pointCount - 1 := ⟨segments, by rw [segmented.count]; rfl⟩
  have repointed := (repointed_unitEnds h.sized segments').1
  refine ⟨repointed, repointed.regular h fun _ x hx => ?_⟩
  obtain ⟨i, hi, rfl⟩ := List.getElem_of_mem hx
  have inside : i < c.pointCount := repointed.pointCount ▸ hi
  obtain ⟨k, hk, r, hr, rfl⟩ := segmented.exists_segment degree pos inside
  obtain ⟨first, -, ratio, -⟩ := h.segmentRatio_spec segmented rooted hk
  rw [← List.getD_eq_getElem _ [], h.getD_unitEnds rational segmented rooted hk hr,
      Point.weight_scale, ← ControlPoints.weight_of_isRational rational]
  exact mul_pos (h.positive.weight_pos inside)
    (div_pos (div_pos one_pos first) (pow_pos ratio r))

/-- **The ends of the segments get the weight 1.** -/
theorem Regular.weight_unitEnds (h : c.Regular) (rational : c.isRational = true)
    (segmented : Segmented c boundaries segments) (pos : 0 < segments) (rooted : c.Rooted)
    {k : Nat} (hk : k ≤ segments) : c.unitEnds.points.weight (c.degree * k) = 1 := by
  have rational' : c.unitEnds.points.isRational = true :=
    (isRational_unitEnds c).trans rational
  have weight := ControlPoints.weight_of_isRational (P := c.points) rational
  rw [ControlPoints.weight_of_isRational rational']
  by_cases last : k = segments
  · -- the last one ends the last segment
    obtain ⟨n, rfl⟩ : ∃ n, segments = n + 1 := ⟨segments - 1, by omega⟩
    obtain ⟨first, final, -, root⟩ := h.segmentRatio_spec segmented rooted (Nat.lt_succ_self n)
    have scaled := h.getD_unitEnds rational segmented rooted (Nat.lt_succ_self n) le_rfl
    rw [← Nat.mul_succ, Nat.succ_eq_add_one, root] at scaled
    rw [last, scaled, Point.weight_scale, ← weight]
    field_simp
  · have inner : k < segments := by omega
    obtain ⟨first, -⟩ := h.segmentRatio_spec segmented rooted inner
    have scaled := h.getD_unitEnds rational segmented rooted inner (Nat.zero_le _)
    rw [Nat.add_zero, pow_zero, div_one] at scaled
    rw [scaled, Point.weight_scale, ← weight, mul_one_div_cancel first.ne']

/-- The values of the forms of both curves at the ends of a segment. -/
theorem Regular.form_unitEnds (h : c.Regular) (rational : c.isRational = true)
    (segmented : Segmented c boundaries segments) (rooted : c.Rooted)
    (knots : c.unitEnds.spline.knots = c.spline.knots)
    (count : c.unitEnds.pointCount = c.pointCount) {d : Nat} {F G : Pieces K d c.degree}
    (hF : Follows c.spline.knots c.points.vectors F)
    (hG : Follows c.unitEnds.spline.knots c.unitEnds.points.vectors G) {k : Nat}
    (hk : k < segments) {t : K} (low : boundaries.getD k 0 < t)
    (high : t < boundaries.getD (k + 1) 0) {r : Nat} (hr : r ≤ c.degree) :
    G t (Multiset.replicate (c.degree - r) (boundaries.getD k 0)
        + Multiset.replicate r (boundaries.getD (k + 1) 0))
      = (1 / c.points.weight (c.degree * k) / c.segmentRatio k ^ r)
        • F t (Multiset.replicate (c.degree - r) (boundaries.getD k 0)
          + Multiset.replicate r (boundaries.getD (k + 1) 0)) := by
  obtain ⟨reach, inside, start, finish, -⟩ := segmented.span h.toSound hk
  have inside' : c.degree * (k + 1) < c.unitEnds.pointCount := by
    rw [count]
    exact inside
  have stretched := stretch_segment h.toSound segmented.values (k := k) (by
    rw [segmented.length]
    omega) hr
  have first : c.degree * k + r ≤ c.degree * (k + 1) := by
    rw [Nat.mul_succ]
    omega
  have last : c.degree * (k + 1) ≤ c.degree * k + r + c.degree := by
    rw [Nat.mul_succ]
    omega
  have old := segmented.getD_vectors h.toSound rfl hF hk low high hr
  have new := hG _ reach inside' t (by rwa [knots, start]) (by rwa [knots, finish]) _ first last
  rw [knots, stretched, h.getD_unitEnds rational segmented rooted hk hr, old,
      Point.scale_ofVec] at new
  exact (Point.ofVec_injective new).symm

/-- **Unit weights at the ends keep each span, under a change of its parameter.** -/
theorem Regular.definedAt_unitEnds (h : c.Regular) (rational : c.isRational = true)
    (segmented : Segmented c boundaries segments) (rooted : c.Rooted) {k : Nat}
    (hk : k < segments) {u : K} (h₀ : 0 ≤ u) (h₁ : u ≤ 1) :
    c.unitEnds.definedAt (mix u (boundaries.getD k 0) (boundaries.getD (k + 1) 0))
      = c.definedAt (mix (retime (c.segmentRatio k) u) (boundaries.getD k 0)
        (boundaries.getD (k + 1) 0)) := by
  obtain ⟨repointed, regular⟩ := h.unitEnds rational segmented (by omega) rooted
  obtain ⟨first, -, ratio, -⟩ := h.segmentRatio_spec segmented rooted hk
  obtain ⟨reach, inside, start, finish, lt⟩ := segmented.span h.toSound hk
  have size : c.unitEnds.vectorSize = c.vectorSize := by
    rw [vectorSize, vectorSize, isRational_unitEnds, repointed.dimension]
  have degree : c.unitEnds.degree = c.degree := by rw [Curve.degree, repointed.order]; rfl
  have knots : c.unitEnds.spline.knots = c.spline.knots := by
    show c.unitEnds.knots.padded c.unitEnds.order = c.knots.padded c.order
    rw [repointed.knots, repointed.order]
  have inside' : c.degree * (k + 1) < c.unitEnds.pointCount := by
    rw [repointed.pointCount]
    exact inside
  obtain ⟨F, hF⟩ := h.toSound.exists_follows rfl rfl
  obtain ⟨G, hG⟩ := regular.toSound.exists_follows size degree
  obtain ⟨t', above, below⟩ := exists_between lt
  have scaled : ∀ r ≤ c.degree, _ := fun r hr =>
    h.form_unitEnds rational segmented rooted knots repointed.pointCount hF hG hk above below hr
  obtain ⟨v₀, v₁⟩ := retime_mem ratio h₀ h₁
  obtain ⟨new₀, new₁⟩ := mix_mem lt.le h₀ h₁
  obtain ⟨old₀, old₁⟩ := mix_mem lt.le v₀ v₁
  have factor : (1 / c.points.weight (c.degree * k))
      * ((u + c.segmentRatio k * (1 - u)) / c.segmentRatio k) ^ c.degree ≠ 0 :=
    (mul_pos (div_pos one_pos first)
      (pow_pos (div_pos (retime_denominator_pos ratio h₀ h₁) ratio) _)).ne'
  rw [definedAt, if_pos ((isRational_unitEnds c).trans rational), definedAt, if_pos rational,
      regular.definedVector_on size degree hG reach inside' (by rwa [knots, start])
        (by rwa [knots, finish]) (by rwa [knots, start]) (by rwa [knots, finish]),
      h.definedVector_on rfl rfl hF reach inside (by rwa [start]) (by rwa [finish])
        (by rwa [start]) (by rwa [finish]), PolarForm.rescale ratio scaled h₀ h₁,
      ← Point.scale_ofVec, Point.dehomogenize_scale factor]

end Traces

/-- `e` runs through the points of `c` over `[a, b]`, in the same direction, at the parameters
that a linear fractional map takes to those of `c`. -/
structure Retraces (c e : Curve K) (a b ratio : K) : Prop where
  /-- The map increases. -/
  ratio_pos : 0 < ratio
  /-- The points are those at the mapped parameters. -/
  value : ∀ u, 0 ≤ u → u ≤ 1 →
    e.definedAt (a + (b - a) * u) = c.definedAt (a + (b - a) * (u / (u + ratio * (1 - u))))

namespace Retraces

variable [IsStrictOrderedRing K] {a b ratio : K}

omit [Analytic K] in
theorem start (h : Retraces c e a b ratio) : e.definedAt a = c.definedAt a := by
  simpa using h.value 0 le_rfl zero_le_one

omit [Analytic K] in
theorem finish (h : Retraces c e a b ratio) : e.definedAt b = c.definedAt b := by
  simpa using h.value 1 zero_le_one le_rfl

omit [Analytic K] in
/-- The same points are traced. -/
theorem image (h : Retraces c e a b ratio) (lt : a < b) :
    e.definedAt '' Set.Icc a b = c.definedAt '' Set.Icc a b := by
  have position : ∀ x ∈ Set.Icc a b, ∃ u, 0 ≤ u ∧ u ≤ 1 ∧ x = a + (b - a) * u := by
    rintro x ⟨hx₀, hx₁⟩
    have length := sub_pos.2 lt
    refine ⟨(x - a) / (b - a), div_nonneg (sub_nonneg.2 hx₀) length.le,
      (div_le_one length).2 (sub_le_sub_right hx₁ a), ?_⟩
    rw [mul_div_cancel₀ _ length.ne', add_sub_cancel]
  have inside : ∀ u, 0 ≤ u → u ≤ 1 → a + (b - a) * u ∈ Set.Icc a b := fun u h₀ h₁ =>
    ⟨by nlinarith, by nlinarith⟩
  refine Set.Subset.antisymm ?_ ?_
  · rintro _ ⟨x, hx, rfl⟩
    obtain ⟨u, h₀, h₁, rfl⟩ := position x hx
    obtain ⟨v₀, v₁⟩ := retime_mem h.ratio_pos h₀ h₁
    exact ⟨_, inside _ v₀ v₁, (h.value u h₀ h₁).symm⟩
  · rintro _ ⟨x, hx, rfl⟩
    obtain ⟨u, h₀, h₁, rfl⟩ := position x hx
    obtain ⟨v₀, v₁⟩ := retime_mem (inv_pos.2 h.ratio_pos) h₀ h₁
    refine ⟨_, inside _ v₀ v₁, (h.value _ v₀ v₁).trans ?_⟩
    exact congrArg (fun v => c.definedAt (a + (b - a) * v)) (retime_retime h.ratio_pos h₀ h₁)

end Retraces

section Split

variable [IsStrictOrderedRing K] [Precision K] [Precision.Exact K]

/-- **Unit weights at the ends of the Bézier spans keep the image of each span.**  The knots
are those of the curve that is only split, every corner weighs 1, and over each span the
curve runs through the same points in the same direction. -/
theorem splitBezier_unitEnds (valid : c.isValid = true) (rational : c.isRational = true)
    (count : c.order < countLimit) (rooted : c.Rooted) :
    ∃ b e, c.splitBezier false = ⟨b, none⟩ ∧ c.splitBezier true = ⟨e, none⟩
      ∧ e.order = c.order ∧ e.isRational = true ∧ e.knots = b.knots
      ∧ (∀ i < e.pointCount, c.degree ∣ i → e.points.weight i = 1)
      ∧ ∀ span ∈ Sequence.neighbours c.spanVector, ∃ ratio, Retraces c e span.1 span.2 ratio
        ∧ StrictMonoOn (fun u => u / (u + ratio * (1 - u))) (Set.Icc 0 1)
        ∧ e.definedAt '' Set.Icc span.1 span.2 = c.definedAt '' Set.Icc span.1 span.2
        ∧ e.definedAt span.1 = c.definedAt span.1 ∧ e.definedAt span.2 = c.definedAt span.2 := by
  have regular := regular_of_isValid valid
  obtain ⟨b, split, regular', keeps, full, member⟩ := exists_split valid count
  have segmented := regular'.segmented full regular keeps member
  have rational' : b.isRational = true := keeps.rational.trans rational
  have rooted' : b.Rooted := by
    unfold Rooted
    rw [keeps.degree]
    exact rooted
  have pos : 0 < c.spanCount := by
    rw [regular.spanCount_eq]
    omega
  obtain ⟨repointed, regular''⟩ := regular'.unitEnds rational' segmented pos rooted'
  refine ⟨b, b.unitEnds, split false, split true, repointed.order.trans keeps.order,
    (isRational_unitEnds b).trans rational', repointed.knots, ?_, ?_⟩
  · rintro i hi ⟨k, rfl⟩
    rw [← keeps.degree]
    refine regular'.weight_unitEnds rational' segmented pos rooted' ?_
    have inside : c.degree * k < c.degree * c.spanCount + 1 := by
      rw [← keeps.degree, ← segmented.count, ← repointed.pointCount, keeps.degree]
      exact hi
    refine Nat.le_of_mul_le_mul_left (Nat.le_of_lt_succ inside) ?_
    have order := regular.two_le_order
    show 0 < c.order - 1
    omega
  · intro span hs
    obtain ⟨k, hk, rfl⟩ := Sequence.exists_of_mem_neighbours hs 0
    have hk' : k < c.spanCount := by
      rw [regular.length_spanVector] at hk
      omega
    obtain ⟨-, -, ratio, -⟩ := regular'.segmentRatio_spec segmented rooted' hk'
    obtain ⟨-, -, -, -, lt⟩ := segmented.span regular'.toSound hk'
    have within : ∀ j < c.spanVector.length, c.domain.1 ≤ c.spanVector.getD j 0
        ∧ c.spanVector.getD j 0 ≤ c.domain.2 := fun j hj => by
      rw [List.getD_eq_getElem _ _ hj]
      exact regular.within_spanVector (List.getElem_mem hj)
    have retraces : Retraces c b.unitEnds (c.spanVector.getD k 0) (c.spanVector.getD (k + 1) 0)
        (b.segmentRatio k) := by
      refine ⟨ratio, fun u h₀ h₁ => ?_⟩
      have position : ∀ v, c.spanVector.getD k 0
          + (c.spanVector.getD (k + 1) 0 - c.spanVector.getD k 0) * v
          = mix v (c.spanVector.getD k 0) (c.spanVector.getD (k + 1) 0) := fun v => by
        simp only [mix, smul_eq_mul]
        ring
      obtain ⟨v₀, v₁⟩ := retime_mem ratio h₀ h₁
      obtain ⟨low, high⟩ := mix_mem lt.le v₀ v₁
      rw [position, position, regular'.definedAt_unitEnds rational' segmented rooted' hk' h₀ h₁]
      exact keeps.definedAt_eq regular.toSound regular'.toSound regular.domain_lt
        ((within k (by omega)).1.trans low) (high.trans (within (k + 1) hk).2)
    exact ⟨_, retraces, fun u hu v hv less => retime_lt ratio hu.1 less hv.2, retraces.image lt,
      retraces.start, retraces.finish⟩

end Split

/-- A rational curve with an unclamped start, on two spans, over the real numbers. -/
noncomputable def arch : Curve ℝ := openStart.map fun k : ℚ => (k : ℝ)

theorem isValid_arch : arch.isValid = true := by
  have epsilon : (Precision.epsilon : ℝ) = 1 / 4503599627370496 := rfl
  refine isValid_iff_exact.2 ⟨by decide, by decide, by decide, ?_, ?_⟩
  · refine ControlPoints.forall_weights_pos_iff.2 (ControlPoints.positive_homogeneous.2 ?_)
    norm_num [Point.weight]
  · norm_num [knotDefect?, arch, openStart, Curve.map, KnotVector.map, ControlPoints.map,
      KnotVector.knot, KnotVector.isNonDecreasing,
      Sequence.neighbours, KnotVector.multiplicities, KnotVector.groupFrom, Scalar.abs_eq,
      epsilon, Precision.Exact.isFinite, pointCount, ControlPoints.length,
      ControlPoints.vectors, Curve.degree]

/-- The powers of real numbers are roots. -/
theorem rooted_arch : arch.Rooted := fun x pos => by
  have degree : ((arch.degree : Nat) : ℝ) ≠ 0 := by
    norm_num [arch, openStart, Curve.map, Curve.degree]
  refine ⟨Real.rpow_pos_of_pos pos _, ?_⟩
  show (x ^ (1 / (arch.degree : ℝ))) ^ arch.degree = x
  rw [← Real.rpow_natCast, ← Real.rpow_mul pos.le, one_div_mul_cancel degree, Real.rpow_one]

/-- The three corners of the arch get the weight 1. -/
theorem splitBezier_unitEnds_arch :
    arch.isValid = true ∧ arch.isRational = true ∧ arch.order < countLimit ∧ arch.Rooted
      ∧ ∃ e, arch.splitBezier true = ⟨e, none⟩ ∧ e.isRational = true
        ∧ ∀ i < e.pointCount, 2 ∣ i → e.points.weight i = 1 := by
  have count : arch.order < countLimit := by decide
  obtain ⟨b, e, -, split, -, rational, -, weight, -⟩ :=
    splitBezier_unitEnds isValid_arch rfl count rooted_arch
  exact ⟨isValid_arch, rfl, count, rooted_arch, e, split, rational, weight⟩

end Curve

end RationalSpline
