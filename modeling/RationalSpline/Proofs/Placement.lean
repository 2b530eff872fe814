/-
  RationalSpline.Proofs.Placement
  ───────────────────────────────
  THE SAME CURVE ELSEWHERE.

  A change of the parameter that scales all distances alike, by a positive factor, takes
  the values with it: moving all knots by one distance is one, mapping the domain to
  another the general one.  A common factor of all control vectors is a factor of every
  value, and the weight 1 is added to every value when it is added to every control
  vector.  None of this changes a location.
-/
import RationalSpline.Proofs.KnotChanges

namespace RationalSpline

variable {K : Type} [Field K] [LinearOrder K]

/-! ## §1. Knots under a change of the parameter. -/

/-- The map `f` changes all distances by the positive factor `σ`. -/
structure Scales (f : K → K) (σ : K) : Prop where
  /-- The factor is positive. -/
  pos : 0 < σ
  /-- The distances change by it. -/
  sub_eq : ∀ x y, f x - f y = σ * (x - y)

/-- A distance by which all numbers are moved. -/
theorem Scales.add [IsStrictOrderedRing K] (δ : K) : Scales (· + δ) 1 where
  pos := one_pos
  sub_eq x y := by ring

section Scales

variable [IsStrictOrderedRing K] {f : K → K} {σ : K}

theorem Scales.lt_iff (h : Scales f σ) {x y : K} : f x < f y ↔ x < y := by
  rw [← sub_pos, h.sub_eq, mul_pos_iff_of_pos_left h.pos, sub_pos]

theorem Scales.le_iff (h : Scales f σ) {x y : K} : f x ≤ f y ↔ x ≤ y := by
  rw [← not_lt, h.lt_iff, not_lt]

theorem Scales.injective (h : Scales f σ) : Function.Injective f := fun x y same => by
  have apart : σ * (x - y) = 0 := by rw [← h.sub_eq, same, sub_self]
  exact sub_eq_zero.1 ((mul_eq_zero.1 apart).resolve_left h.pos.ne')

end Scales

namespace KnotVector

/-- A portion is one of scaled distances as well. -/
theorem portion_mul {σ : K} (nonzero : σ ≠ 0) (a b : K) :
    portion (σ * a) (σ * b) = portion a b := by
  unfold portion
  by_cases empty : b = 0
  · rw [empty, mul_zero, if_pos (beq_self_eq_true _), if_pos (beq_self_eq_true _)]
  · rw [if_neg (by simp [nonzero, empty]), if_neg (by simpa using empty),
        mul_div_mul_left a b nonzero]

variable [IsStrictOrderedRing K] {f : K → K} {σ : K}

/-- The Cox–de Boor functions see portions of distances alone. -/
theorem coxDeBoor_scaled (scales : Scales f σ) {U W : KnotVector K} {finish t : K} {m : Nat}
    (moved : ∀ i ≤ m, W.knot i = f (U.knot i)) {p j : Nat} (inside : j + p + 1 ≤ m) :
    W.coxDeBoor (f finish) (f t) p j = U.coxDeBoor finish t p j := by
  induction p generalizing j with
  | zero =>
      have span : W.onSpan (f finish) (f t) j = U.onSpan finish t j := by
        rw [Bool.eq_iff_iff, onSpan_iff, onSpan_iff, moved j (by omega),
            moved (j + 1) (by omega)]
        simp only [scales.le_iff, scales.lt_iff, scales.injective.eq_iff]
      rw [coxDeBoor, coxDeBoor, span]
  | succ p ih =>
      rw [coxDeBoor, coxDeBoor, ih (by omega), ih (by omega), moved j (by omega),
          moved (j + 1) (by omega), moved (j + p + 1) (by omega), moved (j + p + 2) (by omega)]
      simp only [scales.sub_eq, portion_mul scales.pos.ne']

omit [IsStrictOrderedRing K] in
theorem isClamped_map {f : K → K} (injective : Function.Injective f) {U : KnotVector K}
    {order : Nat} (domain : U.hasDomain order = true) (side : CurveEnd) :
    (U.map f).isClamped order side = U.isClamped order side := by
  simp only [hasDomain, decide_eq_true_eq] at domain
  cases side with
  | start =>
      simp only [isClamped]
      rw [knot_map f U (by omega), knot_map f U (by omega)]
      exact decide_eq_decide.2 injective.eq_iff
  | finish =>
      simp only [isClamped, size_map]
      rw [knot_map f U (by omega), knot_map f U (by omega)]
      exact decide_eq_decide.2 injective.eq_iff

/-- The knots that padding adds continue the spacing, wherever the knots are. -/
theorem superfluous_map (scales : Scales f σ) {U : KnotVector K} {order : Nat}
    (domain : U.hasDomain order = true) (side : CurveEnd) :
    (U.map f).superfluous order side = f (U.superfluous order side) := by
  have clamped := isClamped_map scales.injective domain
  simp only [hasDomain, decide_eq_true_eq] at domain
  have continued : ∀ x y, f x + f x - f y = f (x + x - y) := by
    intro x y
    linear_combination (scales.sub_eq x y) - scales.sub_eq (x + x - y) x
  unfold superfluous
  rw [clamped, size_map]
  cases side <;> dsimp only <;> split
  case start.isTrue | finish.isTrue => exact knot_map _ U (by omega)
  case start.isFalse open_ | finish.isFalse open_ =>
    have second := (not_or.1 open_).2
    rw [knot_map _ U (by omega), knot_map _ U (by omega), continued]

theorem padded_map (scales : Scales f σ) {U : KnotVector K} {order : Nat}
    (domain : U.hasDomain order = true) :
    (U.map f).padded order = (U.padded order).map f := by
  refine congrArg KnotVector.mk ?_
  rw [superfluous_map scales domain, superfluous_map scales domain]
  simp [map, padded]

end KnotVector

theorem Point.scale_scale (p : Point K) (a b : K) : scale (scale p a) b = scale p (a * b) := by
  simp only [scale, List.map_map, Function.comp_def, mul_assoc]

theorem Point.scale_one (p : Point K) : scale p 1 = p := by
  simp [scale]

theorem Point.scale_add (p q : Point K) (a : K) :
    scale (add p q) a = add (scale p a) (scale q a) := by
  rw [scale, add, List.map_zipWith, add, scale, scale, List.zipWith_map]
  exact congrArg (List.zipWith · p q) (funext fun x => funext fun y => add_mul x y a)

/-- A factor other than 0 changes no location. -/
theorem Point.dehomogenize_scale {a : K} (nonzero : a ≠ 0) (x : Point K) :
    Point.dehomogenize (Point.scale x a) = Point.dehomogenize x := by
  rw [Point.dehomogenize, Point.dehomogenize, Point.weight_scale, Point.scale, ← List.map_dropLast,
      Point.divide, Point.divide, List.map_map]
  refine List.map_congr_left fun y _ => ?_
  exact mul_div_mul_right y _ nonzero

namespace Curve

variable {c : Curve K}

/-- Without weights a location is a vector. -/
theorem definedAt_eq_definedVector (plain : c.isRational = false) (t : K) :
    c.definedAt t = c.definedVector t := by
  rw [definedAt, plain]
  rfl

/-- **At the changed parameter a curve on changed knots has the value it had.** -/
theorem Sound.definedVector_mapKnots [IsStrictOrderedRing K] (h : c.Sound) {f : K → K} {σ : K}
    (scales : Scales f σ) (t : K) : (c.mapKnots f).definedVector (f t) = c.definedVector t := by
  obtain ⟨two, enough, size, degree⟩ := h.counts
  have padded := size_padded_knots h
  have points : c.points.vectors.length = c.pointCount := rfl
  have domain : c.knots.hasDomain c.order = true := decide_eq_true ⟨two, by omega⟩
  have knots : (c.mapKnots f).spline.knots = c.spline.knots.map f :=
    KnotVector.padded_map scales domain
  have finish : (c.mapKnots f).domain.2 = f c.domain.2 := by
    rw [h.domain_mapKnots]
  have functions : (List.range c.pointCount).map
        ((c.mapKnots f).spline.knots.coxDeBoor (c.mapKnots f).domain.2 (f t) c.degree)
      = (List.range c.pointCount).map (c.spline.knots.coxDeBoor c.domain.2 t c.degree) := by
    refine List.map_congr_left fun j hj => ?_
    have inside := List.mem_range.1 hj
    rw [knots, finish]
    exact KnotVector.coxDeBoor_scaled scales (m := c.pointCount + c.degree)
      (fun i hi => KnotVector.knot_map _ _ (by omega)) (by omega)
  exact congrArg (fun f => Point.combine c.vectorSize f c.points.vectors) functions

/-! ## §2. Other control vectors. -/

variable {d : Nat} {e : Curve K}

/-- On the same knots the functions are the same. -/
theorem Repointed.definedVector_eq_sum (h : Repointed c e) (hc : c.Sound) (hd : e.vectorSize = d)
    (t : K) : e.definedVector t = Point.ofVec (∑ j ∈ Finset.range c.pointCount,
      c.spline.knots.coxDeBoor c.domain.2 t c.degree j
        • Point.coords d (e.points.vectors.getD j [])) := by
  rw [(h.sound hc).definedVector_eq_sum hd, h.pointCount, h.domain]
  simp only [spline, degree, h.knots, h.order]

theorem vectors_scaleVectors (c : Curve K) (a : K) :
    (c.scaleVectors a).points.vectors = c.points.vectors.map (Point.scale · a) :=
  ControlPoints.vectors_withVectors _ _

theorem getD_scaleVectors (a : K) {j : Nat} (hj : j < c.pointCount) :
    (c.scaleVectors a).points.vectors.getD j [] = Point.scale (c.points.vectors.getD j []) a := by
  have inside : j < c.points.vectors.length := hj
  rw [vectors_scaleVectors, List.getD_eq_getElem _ _ (by simpa using inside), List.getElem_map,
      List.getD_eq_getElem _ _ inside]

variable [IsStrictOrderedRing K]

/-- **A common factor of all control vectors is one of every value.** -/
theorem Sound.definedVector_scaleVectors (h : c.Sound) (a t : K) :
    (c.scaleVectors a).definedVector t = Point.scale (c.definedVector t) a := by
  have size : (c.scaleVectors a).vectorSize = c.vectorSize := by
    simp only [vectorSize, isRational, scaleVectors, ControlPoints.isRational_withVectors]
    rfl
  rw [(repointed_scaleVectors h.sized a).1.definedVector_eq_sum h size, h.definedVector_eq_sum rfl,
      Point.scale_ofVec, Finset.smul_sum]
  refine congrArg Point.ofVec (Finset.sum_congr rfl fun j hj => ?_)
  have inside : j < c.points.vectors.length := Finset.mem_range.1 hj
  have scaled : Point.coords c.vectorSize (Point.scale (c.points.vectors.getD j []) a)
      = a • Point.coords c.vectorSize (c.points.vectors.getD j []) := by
    have fits : (c.points.vectors.getD j []).length = c.vectorSize := by
      rw [List.getD_eq_getElem _ _ inside]
      exact h.sized _ (List.getElem_mem inside)
    conv_lhs => rw [← Point.ofVec_coords fits, Point.scale_ofVec, Point.coords_ofVec]
  rw [getD_scaleVectors a inside, scaled, smul_comm]

theorem Sound.definedAt_scaleVectors (h : c.Sound) {a : K} (nonzero : a ≠ 0)
    (rational : c.isRational = true) (t : K) :
    (c.scaleVectors a).definedAt t = c.definedAt t := by
  have rational' : (c.scaleVectors a).isRational = true :=
    (ControlPoints.isRational_withVectors _ _).trans rational
  rw [definedAt, definedAt, rational', rational, if_pos rfl, if_pos rfl,
      h.definedVector_scaleVectors, Point.dehomogenize_scale nonzero]

/-! ## §3. The weight 1. -/

omit [IsStrictOrderedRing K] in
theorem vectors_makeRational (plain : c.isRational = false) :
    c.makeRational.points.vectors = c.points.vectors.map (· ++ [1]) := by
  obtain ⟨dimension, order, points, knots⟩ := c
  cases points with
  | cartesian => rfl
  | homogeneous => cases plain

omit [IsStrictOrderedRing K] in
theorem makeRational_of_isRational (rational : c.isRational = true) : c.makeRational = c := by
  rw [Curve.makeRational, ControlPoints.toRational_of_isRational rational]

/-- The weight 1 is the weight of every value. -/
theorem Sound.definedVector_makeRational (h : c.Sound) (domain : c.domain.1 < c.domain.2)
    (plain : c.isRational = false) {t : K} (h₀ : c.domain.1 ≤ t) (h₁ : t ≤ c.domain.2) :
    c.makeRational.definedVector t = c.definedVector t ++ [1] := by
  have size : c.vectorSize = c.dimension := by
    rw [vectorSize, plain]
    rfl
  have size' := vectorSize_makeRational c
  have sized := h.sized
  rw [size] at sized
  -- the last coordinate is 1, being so at all control points
  have one : (c.makeRational.definedVector t).getD c.dimension 0 = 1 := by
    refine h.makeRational.getD_definedVector domain (by omega) (fun x hx => ?_) h₀ h₁
    rw [vectors_makeRational plain] at hx
    obtain ⟨y, hy, rfl⟩ := List.mem_map.1 hx
    rw [List.getD_append_right _ _ _ _ (sized y hy).le, sized y hy, Nat.sub_self]
    rfl
  have value := (repointed_makeRational h.sized).definedVector_eq_sum h size' t
  rw [value] at one
  rw [value, h.definedVector_eq_sum size]
  refine List.ext_getElem (by simp) fun i h₂ h₃ => ?_
  -- the others are sums with the same basis functions
  by_cases inside : i < c.dimension
  · rw [List.getElem_append_left (by simpa using inside)]
    simp only [Point.ofVec, List.getElem_ofFn, Finset.sum_apply, Pi.smul_apply]
    refine Finset.sum_congr rfl fun j hj => ?_
    have among : j < c.points.vectors.length := Finset.mem_range.1 hj
    have longer : c.makeRational.points.vectors.getD j [] = c.points.vectors.getD j [] ++ [1] := by
      rw [vectors_makeRational plain, List.getD_eq_getElem _ _ (by simpa using among),
          List.getElem_map, List.getD_eq_getElem _ _ among]
    have fits : (c.points.vectors.getD j []).length = c.dimension := by
      rw [List.getD_eq_getElem _ _ among]
      exact sized _ (List.getElem_mem among)
    have entry : (c.makeRational.points.vectors.getD j []).getD i 0
        = (c.points.vectors.getD j []).getD i 0 := by
      rw [longer]
      exact List.getD_append _ _ _ _ (fits.symm ▸ inside)
    exact congrArg (_ • ·) entry
  · obtain rfl : i = c.dimension := by
      have last : i < c.dimension + 1 := by simpa using h₂
      omega
    rw [List.getD_eq_getElem _ _ h₂] at one
    rw [one]
    simp

/-- **Weights of 1 change no location.** -/
theorem Sound.definedAt_makeRational (h : c.Sound) (domain : c.domain.1 < c.domain.2) {t : K}
    (h₀ : c.domain.1 ≤ t) (h₁ : t ≤ c.domain.2) :
    c.makeRational.definedAt t = c.definedAt t := by
  cases rational : c.isRational with
  | true => rw [makeRational_of_isRational rational]
  | false =>
      rw [definedAt, definedAt, isRational_makeRational, rational, if_pos rfl,
          if_neg Bool.false_ne_true, h.definedVector_makeRational domain rational h₀ h₁]
      simp [Point.dehomogenize, Point.weight, Point.divide]

end Curve

end RationalSpline
