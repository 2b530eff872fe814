/-
  RationalSpline.Proofs.Construction
  ──────────────────────────────────
  CONSTRUCTED CURVES.

  Every constructor but one lets the validity check decide last, or builds a curve that
  passes it.  The curve of a polyline is checked on unit knots and then moved to the
  domain `[0, length]`: it stays regular, but a short polyline can bring knots closer
  together than the spacing of the numbers.
-/
import RationalSpline.Proofs.Interpolation
import RationalSpline.Proofs.Validity
import RationalSpline.Curve.Polyline
import RationalSpline.Primitive.Ellipse
import RationalSpline.Primitive.Spiral

namespace RationalSpline.Curve

variable {K : Type} [Field K] [LinearOrder K] [Precision K]

/-! ## §1. The constructors. -/

/-- A curve from a constructor that checks it last, or need not check it. -/
inductive Checked [Analytic K] : Curve K → Prop
  /-- A curve of a given shape. -/
  | create {dimension order count : Nat} {rational : Bool} {c : Curve K}
      (ok : Curve.create dimension rational order count = .ok c) : Checked c
  /-- A curve from its parts. -/
  | ofParts {dimension order : Nat} {points : ControlPoints K} {knots : List K} {c : Curve K}
      (ok : Curve.ofParts dimension order points knots = .ok c) : Checked c
  /-- A clamped curve on uniform knots. -/
  | clampedUniform {dimension order : Nat} {points : List (Point K)} {delta : K} {c : Curve K}
      (ok : Curve.clampedUniform dimension order points delta = .ok c) : Checked c
  /-- A closed curve on uniform knots. -/
  | periodicUniform {dimension order : Nat} {points : List (Point K)} {delta : K} {c : Curve K}
      (ok : Curve.periodicUniform dimension order points delta = .ok c) : Checked c
  /-- A curve fitted to points. -/
  | interpolate {points : List (Point K)} {degree : Nat} {style : Parameterization} {c : Curve K}
      (ok : Curve.interpolate points degree style = .ok c) : Checked c
  /-- A curve read from a text. -/
  | ofText [Binary K] {text : String} {c : Curve K} (ok : Json.curveOfText text = .ok c) :
      Checked c
  /-- An ellipse. -/
  | ellipse {shape : Ellipse K} {c : Curve K} (ok : shape.toCurve = .ok c) : Checked c
  /-- A spiral around a line. -/
  | aroundAxis {spiral : Spiral K} {start direction : Vec3 K} {c : Curve K}
      (ok : spiral.aroundAxis start direction = .ok c) : Checked c
  /-- A spiral around a rail. -/
  | alongRail {ω : Type} [Quadrature K ω] [Scalar ω] [Precision ω] {spiral : Spiral K}
      {rail : Curve K} {lower upper : K} {c : Curve K}
      (ok : spiral.alongRail rail lower upper = .ok c) : Checked c

/-- A curve from any constructor. -/
inductive Constructed [Analytic K] : Curve K → Prop
  /-- One that is checked. -/
  | checked {c : Curve K} (h : Checked c) : Constructed c
  /-- The curve of a polyline, whatever rule of integration gives its length. -/
  | throughPoints {ω : Type} [Quadrature K ω] [Scalar ω] [Precision ω] {points : List (Point K)}
      {degree : Nat} {c : Curve K} (ok : Curve.throughPoints points degree = .ok c) :
      Constructed c

/-! ## §2. Evenly spread knots. -/

section Evenly

variable [IsStrictOrderedRing K] {c : Curve K}

/-- One knot more than the degree in a row are never closer together than the first ones. -/
def Evenly (c : Curve K) : Prop := ∀ i, i + c.degree < c.knots.size →
  c.knots.knot c.degree - c.knots.knot 0 ≤ c.knots.knot (i + c.degree) - c.knots.knot i

omit [IsStrictOrderedRing K] in
theorem Evenly.spread (h : c.Evenly)
    (first : Precision.epsilon < c.knots.knot c.degree - c.knots.knot 0) : c.Spread :=
  fun i hi => first.trans_le (h i hi)

omit [Precision K] in
/-- Clamped uniform knots step on at least once in so many knots, and just once at the start. -/
theorem Sound.evenly_clampedUniform (h : c.Sound) {delta : K} (pos : 0 < delta) :
    Evenly { c with knots := KnotVector.clampedUniform c.order c.pointCount delta } := by
  have order := h.two_le_order
  have enough := h.order_le
  intro i hi
  rw [KnotVector.size_clampedUniform] at hi
  have degree : c.degree = c.order - 1 := rfl
  show (KnotVector.clampedUniform c.order c.pointCount delta).knot c.degree
    - (KnotVector.clampedUniform c.order c.pointCount delta).knot 0
      ≤ (KnotVector.clampedUniform c.order c.pointCount delta).knot (i + c.degree)
        - (KnotVector.clampedUniform c.order c.pointCount delta).knot i
  replace hi : i + c.degree < c.pointCount + c.order - 2 := hi
  rw [knot_clampedUniform (by omega), knot_clampedUniform (by omega), knot_clampedUniform hi,
      knot_clampedUniform (by omega), ← mul_sub, ← mul_sub]
  refine mul_le_mul_of_nonneg_left ?_ pos.le
  have first : min (c.degree - (c.order - 2)) (c.pointCount - c.order + 1) = 1 := by omega
  have start : min (0 - (c.order - 2)) (c.pointCount - c.order + 1) = 0 := by omega
  have step : min (i - (c.order - 2)) (c.pointCount - c.order + 1) + 1
      ≤ min (i + c.degree - (c.order - 2)) (c.pointCount - c.order + 1) := by omega
  have step' : ((min (i - (c.order - 2)) (c.pointCount - c.order + 1) : Nat) : K) + 1
      ≤ (min (i + c.degree - (c.order - 2)) (c.pointCount - c.order + 1) : Nat) := by
    exact_mod_cast step
  rw [first, start, Nat.cast_one, Nat.cast_zero, sub_zero]
  linarith

omit [Precision K] [IsStrictOrderedRing K] in
/-- Equally spaced knots are spread equally. -/
theorem Sound.evenly_periodicUniform (h : c.Sound) (delta : K) :
    Evenly { c with knots := KnotVector.periodicUniform c.order c.pointCount delta } := by
  have order := h.two_le_order
  have enough := h.order_le
  intro i hi
  rw [KnotVector.size_periodicUniform] at hi
  have degree : c.degree = c.order - 1 := rfl
  show (KnotVector.periodicUniform c.order c.pointCount delta).knot c.degree
    - (KnotVector.periodicUniform c.order c.pointCount delta).knot 0
      ≤ (KnotVector.periodicUniform c.order c.pointCount delta).knot (i + c.degree)
        - (KnotVector.periodicUniform c.order c.pointCount delta).knot i
  replace hi : i + c.degree < c.pointCount + c.order - 2 := hi
  rw [knot_periodicUniform (by omega), knot_periodicUniform (by omega), knot_periodicUniform hi,
      knot_periodicUniform (by omega)]
  refine le_of_eq ?_
  push_cast
  ring

omit [Precision K] in
/-- A scaled domain has scaled distances. -/
theorem Evenly.setDomain {e : Curve K} (h : c.Evenly) (sound : c.Sound)
    (domain : c.domain.1 < c.domain.2) {t0 t1 : K} (ok : c.setDomain t0 t1 = .ok e) :
    e.Evenly := by
  obtain ⟨lt, rfl | rfl⟩ := setDomain_eq_ok ok domain
  · exact h
  · intro i hi
    obtain ⟨order, enough, size, degree⟩ := sound.counts
    have same : (c.mapKnots (affineMap c.domain (t0, t1))).knots.size = c.knots.size :=
      KnotVector.size_map _ _
    replace hi : i + c.degree < c.knots.size := same ▸ hi
    have scale : 0 < (t1 - t0) / (c.domain.2 - c.domain.1) :=
      div_pos (sub_pos.2 lt) (sub_pos.2 domain)
    have distance : ∀ j k, j < c.knots.size → k < c.knots.size →
        (c.mapKnots (affineMap c.domain (t0, t1))).knots.knot k
          - (c.mapKnots (affineMap c.domain (t0, t1))).knots.knot j
        = (c.knots.knot k - c.knots.knot j) * ((t1 - t0) / (c.domain.2 - c.domain.1)) := by
      intro j k hj hk
      rw [mapKnots, KnotVector.knot_map _ _ hj, KnotVector.knot_map _ _ hk, affineMap, affineMap]
      ring
    show (c.mapKnots (affineMap c.domain (t0, t1))).knots.knot c.degree
        - (c.mapKnots (affineMap c.domain (t0, t1))).knots.knot 0
      ≤ (c.mapKnots (affineMap c.domain (t0, t1))).knots.knot (i + c.degree)
        - (c.mapKnots (affineMap c.domain (t0, t1))).knots.knot i
    rw [distance _ _ (by omega) (by omega), distance _ _ (by omega) hi]
    exact mul_le_mul_of_nonneg_right (h i hi) scale.le

end Evenly

/-! ## §3. Curves of a given shape. -/

section Create

variable {dimension order count : Nat} {rational : Bool}

theorem checkShape_eq_ok {α : Type} {r : Unit}
    (h : (checkShape dimension order count : Except (Failure α) Unit) = .ok r) :
    1 ≤ dimension ∧ 2 ≤ order ∧ order ≤ count := by
  unfold checkShape at h
  split_ifs at h
  omega

theorem checkStorage_eq_ok {α : Type} {n : Nat} {r : Unit}
    (h : (checkStorage n : Except (Failure α) Unit) = .ok r) : n < storageLimit := by
  unfold checkStorage at h
  split at h
  · next fits => exact fits
  · cases h

/-- So many control points at the origin, of weight 1. -/
def atOrigin (dimension count : Nat) (rational : Bool) : ControlPoints K :=
  if rational then .homogeneous (List.replicate count (Point.zero dimension ++ [1]))
  else .cartesian (List.replicate count (Point.zero dimension))

omit [Precision K] in
theorem length_atOrigin :
    (atOrigin dimension count rational : ControlPoints K).length = count := by
  cases rational <;> exact List.length_replicate

omit [Precision K] in
theorem sized_atOrigin : ∀ x ∈ (atOrigin dimension count rational : ControlPoints K).vectors,
    x.length = if (atOrigin dimension count rational : ControlPoints K).isRational
      then dimension + 1 else dimension := by
  intro x hx
  cases rational <;> obtain rfl := List.eq_of_mem_replicate hx <;>
    simp [atOrigin, ControlPoints.isRational]

omit [Precision K] in
theorem positive_atOrigin [IsStrictOrderedRing K] :
    (atOrigin dimension count rational : ControlPoints K).Positive := by
  cases rational with
  | false => exact ControlPoints.positive_cartesian _
  | true =>
      refine ControlPoints.positive_homogeneous.2 fun x hx => ?_
      obtain rfl := List.eq_of_mem_replicate hx
      rw [Point.weight, List.getLastD_concat]
      exact zero_lt_one

omit [Precision K] in
/-- What a created curve is. -/
theorem create_eq_ok {c : Curve K} (ok : create dimension rational order count = .ok c) :
    1 ≤ dimension ∧ 2 ≤ order ∧ order ≤ count ∧ dimension < storageLimit
      ∧ c = ⟨dimension, order, atOrigin dimension count rational,
        KnotVector.clampedUniform order count 1⟩ := by
  obtain ⟨_, shape, ok⟩ := bind_eq_ok ok
  obtain ⟨_, storage, ok⟩ := bind_eq_ok ok
  obtain ⟨_, -, ok⟩ := bind_eq_ok ok
  obtain ⟨dimension_pos, two, enough⟩ := checkShape_eq_ok shape
  cases ok
  exact ⟨dimension_pos, two, enough, checkStorage_eq_ok storage, rfl⟩

omit [Precision K] in
/-- A created curve has the knots that its own counts give. -/
theorem eq_withKnots_of_create {c : Curve K} (ok : create dimension rational order count = .ok c) :
    c = { c with knots := KnotVector.clampedUniform c.order c.pointCount 1 } := by
  obtain ⟨-, -, -, -, rfl⟩ := create_eq_ok ok
  simp only [pointCount, length_atOrigin]

omit [Precision K] in
theorem sound_create [IsStrictOrderedRing K] {c : Curve K}
    (ok : create dimension rational order count = .ok c) : c.Sound := by
  obtain ⟨-, two, enough, -, rfl⟩ := create_eq_ok ok
  have length : (atOrigin dimension count rational : ControlPoints K).length = count :=
    length_atOrigin
  exact
    { two_le_order := two
      order_le := enough.trans_eq length.symm
      knotCount_eq := by
        show (KnotVector.clampedUniform order count (1 : K)).size = _
        rw [KnotVector.size_clampedUniform]
        exact congrArg (· + order - 2) length.symm
      ordered := ordered_clampedUniform zero_lt_one
      sized := sized_atOrigin }

omit [Precision K] in
/-- **A created curve is regular.** -/
theorem regular_create [IsStrictOrderedRing K] {c : Curve K}
    (ok : create dimension rational order count = .ok c) : c.Regular := by
  have sound := sound_create ok
  rw [eq_withKnots_of_create ok]
  obtain ⟨dimension_pos, -, -, -, rfl⟩ := create_eq_ok ok
  exact sound.regular_clampedUniform dimension_pos positive_atOrigin zero_lt_one

/-- Its knots are spread as far as one step. -/
theorem spread_create [IsStrictOrderedRing K] (fine : (Precision.epsilon : K) < 1) {c : Curve K}
    (ok : create dimension rational order count = .ok c) : c.Spread := by
  have sound := sound_create ok
  have order := sound.two_le_order
  have enough := sound.order_le
  have evenly := sound.evenly_clampedUniform (zero_lt_one (α := K))
  rw [← eq_withKnots_of_create ok] at evenly
  refine evenly.spread ?_
  have knots : c.knots = KnotVector.clampedUniform c.order c.pointCount 1 :=
    congrArg Curve.knots (eq_withKnots_of_create ok)
  have degree : c.degree = c.order - 1 := rfl
  have first : min (c.degree - (c.order - 2)) (c.pointCount - c.order + 1) = 1 := by omega
  rw [knots, knot_clampedUniform (by omega), knot_clampedUniform (by omega), first]
  simpa using fine

end Create

/-! ## §4. Curves that are checked last. -/

/-- A curve that is read has passed the check. -/
theorem isValid_of_read [Binary K] {text rest : List Char} {c : Curve K}
    (read : (Json.curve : Json.Decoder (Failure K) (Curve K)) text = .ok (c, rest)) :
    c.isValid = true := by
  unfold Json.curve at read
  obtain ⟨⟨unchecked, more⟩, -, read⟩ := bind_eq_ok read
  cases passed : unchecked.admitted with
  | error e =>
      simp only [Json.accept, passed] at read
      cases read
  | ok b =>
      simp only [Json.accept, passed] at read
      cases read
      obtain ⟨valid, rfl⟩ := admitted_eq_ok passed
      exact valid

variable [IsStrictOrderedRing K] [Precision.Exact K] [Analytic K]

/-- A closed curve repeats its points on equally spaced knots, and is valid. -/
theorem periodicUniform_eq_ok {α : Type} [Scalar α] [Precision α] {dimension order : Nat}
    {points : List (Point α)} {delta : α} {c : Curve α}
    (ok : Curve.periodicUniform dimension order points delta = .ok c) :
    2 ≤ order ∧ max 2 (order - 1) ≤ points.length ∧ 0 < delta ∧ c.isValid = true
      ∧ c = { dimension, order
              points := .cartesian ((List.range (points.length + order - 1)).map fun i =>
                points.getD (i % points.length) [])
              knots := KnotVector.periodicUniform order (points.length + order - 1) delta } := by
  unfold Curve.periodicUniform at ok
  split_ifs at ok with small few
  obtain ⟨_, -, ok⟩ := bind_eq_ok ok
  obtain ⟨_, spacing, ok⟩ := bind_eq_ok ok
  obtain ⟨valid, rfl⟩ := validated_eq_ok_iff.1 ok
  exact ⟨by omega, not_lt.1 few, checkSpacing_eq_ok spacing, valid, rfl⟩

omit [IsStrictOrderedRing K] [Precision.Exact K] in
theorem isValid_of_interpolate {points : List (Point K)} {degree : Nat} {style : Parameterization}
    {c : Curve K} (ok : interpolate points degree style = .ok c) : c.isValid = true := by
  obtain ⟨_, _, -, -, -, -, -, valid, -⟩ := interpolateBy_eq_ok ok
  exact valid

omit [IsStrictOrderedRing K] [Precision.Exact K] in
theorem isValid_of_fit {points : List (Vec3 K)} {c : Curve K} (ok : Spiral.fit points = .ok c) :
    c.isValid = true := by
  unfold Spiral.fit Spiral.within at ok
  split at ok
  · next fitted =>
      cases ok
      exact isValid_of_interpolate fitted
  · cases ok

omit [IsStrictOrderedRing K] [Precision.Exact K] in
/-- A constructor lets the check decide, or gives a curve of a given shape. -/
theorem Checked.isValid_or_create {c : Curve K} (h : Checked c) :
    c.isValid = true ∨ ∃ dimension rational order count,
      Curve.create dimension rational order count = .ok c := by
  cases h with
  | create ok => exact .inr ⟨_, _, _, _, ok⟩
  | ofParts ok =>
      obtain ⟨valid, rfl⟩ := admitted_eq_ok ok
      exact .inl valid
  | clampedUniform ok =>
      obtain ⟨_, -, ok⟩ := bind_eq_ok ok
      obtain ⟨_, -, ok⟩ := bind_eq_ok ok
      obtain ⟨_, -, ok⟩ := bind_eq_ok ok
      obtain ⟨valid, rfl⟩ := validated_eq_ok_iff.1 ok
      exact .inl valid
  | periodicUniform ok =>
      exact .inl (periodicUniform_eq_ok ok).2.2.2.1
  | interpolate ok => exact .inl (isValid_of_interpolate ok)
  | ofText ok =>
      unfold Json.curveOfText Json.Decoder.run at ok
      split at ok
      · next read =>
          split at ok
          · cases ok
            exact .inl (isValid_of_read read)
          · cases ok
      · cases ok
  | ellipse ok =>
      unfold Ellipse.toCurve at ok
      split_ifs at ok
      obtain ⟨valid, rfl⟩ := admitted_eq_ok ok
      exact .inl valid
  | aroundAxis ok =>
      unfold Spiral.aroundAxis at ok
      split at ok
      · split at ok
        · obtain ⟨_, -, ok⟩ := bind_eq_ok ok
          obtain ⟨_, -, ok⟩ := bind_eq_ok ok
          obtain ⟨_, -, ok⟩ := bind_eq_ok ok
          obtain ⟨_, -, ok⟩ := bind_eq_ok ok
          exact .inl (isValid_of_fit ok)
        · cases ok
      · cases ok
  | alongRail ok =>
      unfold Spiral.alongRail at ok
      dsimp only at ok
      split_ifs at ok
      · obtain ⟨_, -, ok⟩ := bind_eq_ok ok
        obtain ⟨_, -, ok⟩ := bind_eq_ok ok
        obtain ⟨_, -, ok⟩ := bind_eq_ok ok
        obtain ⟨_, -, ok⟩ := bind_eq_ok ok
        split_ifs at ok
        · obtain ⟨_, -, ok⟩ := bind_eq_ok ok
          exact .inl (isValid_of_fit ok)
        · cases ok
      · cases ok

/-- **Constructors that check last give valid curves.** -/
theorem Checked.isValid (fine : (Precision.epsilon : K) < 1) {c : Curve K} (h : Checked c) :
    c.isValid = true := by
  obtain valid | ⟨dimension, rational, order, count, ok⟩ := h.isValid_or_create
  · exact valid
  · have regular := regular_create ok
    refine regular.isValid ?_ (spread_create fine ok)
    obtain ⟨-, -, -, storage, rfl⟩ := create_eq_ok ok
    have limit : storageLimit + 1 < countLimit := by decide
    unfold vectorSize
    dsimp only
    split <;> omega

theorem Checked.regular {c : Curve K} (h : Checked c) : c.Regular := by
  obtain valid | ⟨dimension, rational, order, count, ok⟩ := h.isValid_or_create
  · exact regular_of_isValid valid
  · exact regular_create ok

/-! ## §5. Curves of polylines. -/

section Polyline

variable {ω : Type} [Quadrature K ω] [Scalar ω] [Precision ω] {points : List (Point K)}
  {degree : Nat} {c : Curve K}

omit [IsStrictOrderedRing K] [Precision.Exact K] in
/-- The curve of a polyline is checked on unit knots. -/
theorem polylineCurve_eq_ok (ok : polylineCurve points degree = .ok c) :
    c.isValid = true ∧ (c = { c with knots := KnotVector.clampedUniform c.order c.pointCount 1 }
      ∨ c = { c with knots := KnotVector.periodicUniform c.order c.pointCount 1 }) := by
  unfold polylineCurve at ok
  dsimp only at ok
  split_ifs at ok
  · obtain ⟨-, -, -, valid, rfl⟩ := periodicUniform_eq_ok ok
    refine ⟨valid, .inr ?_⟩
    simp [pointCount, ControlPoints.length, ControlPoints.vectors]
  · obtain ⟨_, -, ok⟩ := bind_eq_ok ok
    obtain ⟨_, -, ok⟩ := bind_eq_ok ok
    obtain ⟨_, -, ok⟩ := bind_eq_ok ok
    obtain ⟨valid, rfl⟩ := validated_eq_ok_iff.1 ok
    exact ⟨valid, .inl rfl⟩

/-- The curve is then moved to a domain as long as it is. -/
theorem throughPoints_eq_ok {α ω : Type} [Scalar α] [Precision α] [Analytic α] [Quadrature α ω]
    [Scalar ω] [Precision ω] {points : List (Point α)} {c : Curve α}
    (ok : throughPoints points degree = .ok c) :
    ∃ b, polylineCurve points degree = .ok b
      ∧ (c = b ∨ ∃ l, 0 < l ∧ b.setDomain 0 l = .ok c) := by
  unfold throughPoints at ok
  split_ifs at ok
  obtain ⟨_, -, ok⟩ := bind_eq_ok ok
  obtain ⟨b, curve, ok⟩ := bind_eq_ok ok
  refine ⟨b, curve, ?_⟩
  split at ok
  · next l _ =>
      split_ifs at ok with pos
      · exact .inr ⟨l, pos, ok⟩
      · cases ok
        exact .inl rfl
  · cases ok
    exact .inl rfl

/-- What the curve of a polyline is. -/
theorem throughPoints_spec (ok : throughPoints points degree = .ok c) :
    c.Regular ∧ c.Evenly ∧ c.vectorSize < countLimit := by
  obtain ⟨b, curve, moved⟩ := throughPoints_eq_ok ok
  obtain ⟨valid, knots⟩ := polylineCurve_eq_ok curve
  obtain ⟨size, regular, -⟩ := isValid_iff_regular.1 valid
  have evenly : b.Evenly := by
    rcases knots with same | same
    · rw [same]
      exact regular.toSound.evenly_clampedUniform one_pos
    · rw [same]
      exact regular.toSound.evenly_periodicUniform 1
  rcases moved with rfl | ⟨l, -, moved⟩
  · exact ⟨regular, evenly, size⟩
  · refine ⟨regular.setDomain moved, evenly.setDomain regular.toSound regular.domain_lt moved, ?_⟩
    obtain ⟨-, rfl | rfl⟩ := setDomain_eq_ok moved regular.domain_lt
    · exact size
    · exact size

/-- **The curve of a polyline is valid exactly if its first knots are spread** by more than the
spacing of the numbers: a polyline that is too short brings them closer together. -/
theorem isValid_throughPoints_iff (ok : throughPoints points degree = .ok c) :
    c.isValid = true ↔ Precision.epsilon < c.knots.knot c.degree - c.knots.knot 0 := by
  obtain ⟨regular, evenly, size⟩ := throughPoints_spec ok
  refine ⟨fun valid => ?_, fun first => regular.isValid size (evenly.spread first)⟩
  exact (isValid_iff_regular.1 valid).2.2.first_spread regular.toSound

end Polyline

/-- **Every constructor gives a regular curve.** -/
theorem Constructed.regular {c : Curve K} (h : Constructed c) : c.Regular := by
  cases h with
  | checked h => exact h.regular
  | throughPoints ok => exact (throughPoints_spec ok).1

/-- **Constructors give valid curves, except for a polyline that is too short.**  A curve that
is checked last is valid; the curve of a polyline, moved to a domain of its length, is valid
exactly if its first knots are spread by more than the spacing of the numbers. -/
theorem constructed_isValid (fine : (Precision.epsilon : K) < 1) :
    (∀ c : Curve K, Checked c → c.isValid = true)
      ∧ ∀ (ω : Type) [Quadrature K ω] [Scalar ω] [Precision ω] (points : List (Point K))
          (degree : Nat) (c : Curve K), throughPoints points degree = .ok c →
        (c.isValid = true ↔ Precision.epsilon < c.knots.knot c.degree - c.knots.knot 0) :=
  ⟨fun _ h => h.isValid fine, fun _ _ _ _ _ _ _ ok => isValid_throughPoints_iff ok⟩

/-- A polyline of one edge, shorter than the spacing of the numbers. -/
theorem throughPoints_shortEdge : throughPoints [[0], [(1 / 100000000000000000 : ℚ)]] 1
    = .ok ⟨1, 2, .cartesian [[0], [1 / 100000000000000000]], ⟨[0, 1 / 100000000000000000]⟩⟩ := by
  with_unfolding_all rfl

/-- Polylines of one edge, on either side of the spacing of the numbers. -/
theorem constructed_isValid_edge :
    (Precision.epsilon : ℚ) < 1
      ∧ (∃ c : Curve ℚ, throughPoints [[0], [1]] 1 = .ok c ∧ c.isValid = true)
      ∧ ∃ c : Curve ℚ, throughPoints [[0], [1 / 100000000000000000]] 1 = .ok c
        ∧ ¬c.isValid = true := by
  have fine : (Precision.epsilon : ℚ) < 1 := by with_unfolding_all decide
  have long : throughPoints [[0], [(1 : ℚ)]] 1
      = .ok ⟨1, 2, .cartesian [[0], [1]], ⟨[0, 1]⟩⟩ := by with_unfolding_all rfl
  have short := throughPoints_shortEdge
  obtain ⟨-, polyline⟩ := constructed_isValid fine
  refine ⟨fine, ⟨_, long, (polyline _ _ _ _ long).2 ?_⟩, _, short, fun valid => ?_⟩
  · with_unfolding_all decide
  · refine absurd ((polyline _ _ _ _ short).1 valid) ?_
    with_unfolding_all decide

/-- The curve of a polyline of length `10⁻¹⁷` does not pass the validity check. -/
theorem shortEdge_not_isValid :
    ∃ c : Curve ℚ, Constructed c ∧ c.isValid = false := by
  refine ⟨_, .throughPoints throughPoints_shortEdge, ?_⟩
  with_unfolding_all rfl

end RationalSpline.Curve
