/-
  RationalSpline.Proofs.ClosedPolyline
  ────────────────────────────────────
  THE CURVE OF A CLOSED POLYLINE.

  A closed polyline of `n` vertices repeats the first one at its end.  A turn drops the
  last vertex and puts the one before it in front once more, so the first `n` entries are
  the vertices in a circle, one place later after each turn.  The closed curve takes them
  in turn, and closes whatever the domain is moved to.

  So by definition the seam is smooth.  The span search tells the two ends of the domain
  apart as long as it is no shorter than the spacing of the numbers; a polyline that is
  shorter than that gives a curve whose derivatives are evaluated in the last span at both
  ends (`throughPoints_tinyTriangle`).
-/
import RationalSpline.Proofs.Rescaling
import RationalSpline.Proofs.Seam

open Polynomial

namespace RationalSpline.Curve

/-! ## §1. Turning. -/

section Turning

variable {α : Type} {points : List (Point α)} {n : Nat}

/-- One turn moves the circle of vertices by one place. -/
theorem turn_spec (length : points.length = n + 1) (pos : 1 ≤ n) :
    (turn points).length = n + 1 ∧ (turn points).take n = (points.take n).rotate (n - 1) := by
  -- the closing vertex goes, and the last one of the ring stands at both ends
  obtain ⟨ring, closing, rfl⟩ : ∃ ring closing, points = ring ++ [closing] :=
    (List.eq_nil_or_concat' points).resolve_left fun e => by simp [e] at length
  have ring_length : ring.length = n := by simpa using length
  obtain ⟨before, last, rfl⟩ : ∃ before last, ring = before ++ [last] :=
    (List.eq_nil_or_concat' ring).resolve_left fun e => by simp [e] at ring_length; omega
  obtain rfl : before.length + 1 = n := by simpa using ring_length
  have turned : turn (before ++ [last] ++ [closing]) = last :: before ++ [last] := by
    simp [turn]
  have circle : (before ++ [last] ++ [closing]).take (before.length + 1) = before ++ [last] :=
    List.take_left' ring_length
  refine ⟨by rw [turned]; simp, ?_⟩
  rw [turned, circle, Nat.add_sub_cancel, List.rotate_append_length_eq]
  exact List.take_left' rfl

/-- **All turns together are one rotation.** -/
theorem repeat_turn_spec (length : points.length = n + 1) (pos : 1 ≤ n) {shift : Nat}
    (le : shift ≤ n) : (Nat.repeat turn shift points).length = n + 1
      ∧ (Nat.repeat turn shift points).take n = (points.take n).rotate (n - shift) := by
  have size : (points.take n).length = n := by
    rw [List.length_take, length]
    omega
  -- a whole round is no rotation
  have round : ∀ k, ((points.take n).rotate k).rotate n = (points.take n).rotate k := fun k => by
    have whole := List.rotate_length ((points.take n).rotate k)
    rwa [List.length_rotate, size] at whole
  induction shift with
  | zero =>
      refine ⟨length, ?_⟩
      have whole := round 0
      rw [List.rotate_zero] at whole
      exact whole.symm
  | succ shift ih =>
      obtain ⟨length', circle⟩ := ih (by omega)
      obtain ⟨length'', circle'⟩ := turn_spec length' pos
      refine ⟨length'', ?_⟩
      rw [Nat.repeat, circle', circle, List.rotate_rotate,
          show n - shift + (n - 1) = n - (shift + 1) + n by omega, ← List.rotate_rotate, round]

/-- The vertices of a turned polyline, by their places in the circle. -/
theorem getD_turned (length : points.length = n + 1) (pos : 1 ≤ n) {shift : Nat} (le : shift ≤ n)
    {i : Nat} (hi : i < n) :
    (turned points shift).getD i [] = points.getD ((i + n - shift) % n) [] := by
  obtain ⟨-, circle⟩ := repeat_turn_spec length pos le
  have size : (points.take n).length = n := by
    rw [List.length_take, length]
    omega
  have place : (i + n - shift) % n < n := Nat.mod_lt _ pos
  rw [turned, length, Nat.add_sub_cancel, circle,
      List.getD_eq_getElem _ _ (by rwa [List.length_rotate, size]), List.getElem_rotate,
      List.getElem_take, List.getD_eq_getElem _ _ (by omega)]
  simp only [size, Nat.add_sub_assoc le]

theorem length_turned (length : points.length = n + 1) (pos : 1 ≤ n) {shift : Nat}
    (le : shift ≤ n) : (turned points shift).length = n := by
  obtain ⟨size, -⟩ := repeat_turn_spec length pos le
  rw [turned, List.length_take, size, length]
  omega

end Turning

/-! ## §2. The circle of control points. -/

section Circle

variable {α : Type} [Scalar α] [Precision α] [Analytic α] {points : List (Point α)} {degree n : Nat}
  {c : Curve α}

/-- The closed curve takes a turned polyline once around. -/
theorem polylineCurve_closed (length : points.length = n + 1) (three : 3 ≤ n)
    (near : Point.norm (Point.sub (points.headD []) (points.getLastD [])) ≤ Scalar.zeroTolerance)
    (ok : polylineCurve points degree = .ok c) :
    c.degree = min (min (max degree 1) maxDegree) n
      ∧ periodicUniform c.dimension c.order (turned points ((c.degree - 1) / 2)) 1 = .ok c := by
  have closed : isClosed points = true := decide_eq_true ⟨by omega, near⟩
  have maximum : maxDegree = 11 := rfl
  have allowed : polylineDegree points.length degree = min (min (max degree 1) maxDegree) n := by
    rw [polylineDegree, length, Nat.add_sub_cancel]
  unfold polylineCurve at ok
  simp only [closed, if_true, allowed] at ok
  obtain ⟨-, -, -, -, whole⟩ := periodicUniform_eq_ok ok
  have order : c.degree = min (min (max degree 1) maxDegree) n := by rw [whole]; rfl
  refine ⟨order, ?_⟩
  rw [order]
  rw [whole] at ok ⊢
  exact ok

/-- **Its control points are the vertices in a circle**, turned by half the degree. -/
theorem polylineCurve_circle (length : points.length = n + 1) (three : 3 ≤ n)
    (near : Point.norm (Point.sub (points.headD []) (points.getLastD [])) ≤ Scalar.zeroTolerance)
    (ok : polylineCurve points degree = .ok c) :
    c.degree = min (min (max degree 1) maxDegree) n ∧ c.pointCount = n + c.degree
      ∧ c.isRational = false
      ∧ ∀ i < n + c.degree,
        c.points.vectors[i]? = points[(i + n - (c.degree - 1) / 2) % n]? := by
  obtain ⟨allowed, periodic⟩ := polylineCurve_closed length three near ok
  obtain ⟨two, -, -, -, whole⟩ := periodicUniform_eq_ok periodic
  have maximum : maxDegree = 11 := rfl
  have few : (c.degree - 1) / 2 ≤ n := by omega
  have circle : (turned points ((c.degree - 1) / 2)).length = n :=
    length_turned length (by omega) few
  have degree_eq : c.degree = c.order - 1 := rfl
  have vectors : c.points.vectors = (List.range (n + c.order - 1)).map fun i =>
      (turned points ((c.degree - 1) / 2)).getD (i % n) [] := by
    rw [circle] at whole
    exact congrArg (fun c => c.points.vectors) whole
  refine ⟨allowed, ?_, by rw [whole]; rfl, fun i hi => ?_⟩
  · show c.points.vectors.length = _
    rw [vectors, List.length_map, List.length_range]
    omega
  · have place : i % n < n := Nat.mod_lt _ (by omega)
    -- the periodic curve takes the points modulo their number once more
    have same : (i % n + n - (c.degree - 1) / 2) % n = (i + n - (c.degree - 1) / 2) % n := by
      rw [Nat.add_sub_assoc few, Nat.add_sub_assoc few, Nat.mod_add_mod]
    have inside : (i + n - (c.degree - 1) / 2) % n < points.length :=
      (Nat.mod_lt _ (by omega)).trans (by omega)
    rw [vectors, List.getElem?_map, List.getElem?_range (by omega), Option.map_some,
        getD_turned length (by omega) few place, same, List.getD_eq_getElem _ _ inside,
        List.getElem?_eq_getElem inside]

omit [Precision α] [Analytic α] in
/-- Moving the domain keeps the degree and the control points. -/
theorem setDomain_keeps {b : Curve α} {t0 t1 : α} (ok : b.setDomain t0 t1 = .ok c) :
    c.degree = b.degree ∧ c.points = b.points := by
  unfold setDomain at ok
  split_ifs at ok <;> cases ok <;> exact ⟨rfl, rfl⟩

variable {ω : Type} [Quadrature α ω] [Scalar ω] [Precision ω]

/-- **So are those of the curve through the points of a closed polyline**, in all numbers. -/
theorem throughPoints_circle (length : points.length = n + 1) (three : 3 ≤ n)
    (near : Point.norm (Point.sub (points.headD []) (points.getLastD [])) ≤ Scalar.zeroTolerance)
    (ok : throughPoints points degree = .ok c) :
    c.degree = min (min (max degree 1) maxDegree) n ∧ c.pointCount = n + c.degree
      ∧ c.isRational = false
      ∧ ∀ i < n + c.degree,
        c.points.vectors[i]? = points[(i + n - (c.degree - 1) / 2) % n]? := by
  obtain ⟨b, curve, moved⟩ := throughPoints_eq_ok ok
  obtain ⟨same, points_eq⟩ : c.degree = b.degree ∧ c.points = b.points := by
    rcases moved with rfl | ⟨l, -, moved⟩
    · exact ⟨rfl, rfl⟩
    · exact setDomain_keeps moved
  rw [pointCount, isRational, same, points_eq]
  exact polylineCurve_circle length three near curve

end Circle

/-! ## §3. The seam of a curve that closes. -/

variable {K : Type} [Field K] [LinearOrder K] [IsStrictOrderedRing K] {c : Curve K} {n : Nat}
  {period : K}

/-- A curve that closes does so on scaled knots. -/
theorem Closes.mapKnots {f : K → K} {σ : K} (h : c.Closes n period) (scales : Scales f σ) :
    (c.mapKnots f).Closes n (σ * period) where
  pointCount_eq := h.pointCount_eq
  vector_eq := h.vector_eq
  knot_eq i hi := by
    replace hi : i + n < c.knots.size := by rwa [← KnotVector.size_map f c.knots]
    show (c.knots.map f).knot (i + n) = (c.knots.map f).knot i + σ * period
    rw [KnotVector.knot_map f c.knots hi, KnotVector.knot_map f c.knots (by omega)]
    have distance := scales.sub_eq (c.knots.knot (i + n)) (c.knots.knot i)
    rw [h.knot_eq i hi, add_sub_cancel_left] at distance
    rw [h.knot_eq i hi]
    linarith

/-- By definition both the location and the derivatives below the degree are the same at the two
ends of the domain. -/
structure Seamless (c : Curve K) : Prop where
  /-- The location. -/
  location_eq : c.definedAt c.domain.1 = c.definedAt c.domain.2
  /-- The derivatives of the pieces on the first and the last span. -/
  derivative_eq : ∃ first last : Nat → K[X],
    c.IsPiece c.degree first ∧ c.IsPiece (c.pointCount - 1) last
      ∧ ∀ k < c.degree, ∀ m < c.vectorSize,
        (derivative^[k] (first m)).eval c.domain.1 = (derivative^[k] (last m)).eval c.domain.2

/-- The forms of the first and the last span, with parameters inside them, and their values at the
two ends of the domain. -/
theorem Closes.exists_forms (h : c.Closes n period) (regular : c.Regular) :
    ∃ (F : Pieces K c.vectorSize c.degree) (t t' : K),
      Follows c.spline.knots c.points.vectors F
        ∧ c.spline.knots.knot c.degree < t ∧ t < c.spline.knots.knot (c.degree + 1)
        ∧ c.spline.knots.knot (c.pointCount - 1) < t'
        ∧ t' < c.spline.knots.knot (c.pointCount - 1 + 1)
        ∧ F t (Multiset.replicate c.degree c.domain.1)
          = F t' (Multiset.replicate c.degree c.domain.2) := by
  obtain ⟨two, enough, size, degree⟩ := regular.counts
  have whole : c.pointCount - 1 + 1 = c.pointCount := by omega
  obtain ⟨F, follows⟩ := regular.toSound.exists_follows rfl rfl
  obtain ⟨-, -, first, last⟩ := regular.end_spans
  -- a form belongs to a span by the parameters inside it, never by the ends
  obtain ⟨t, low, high⟩ := exists_between first
  obtain ⟨t', low', high'⟩ := exists_between last
  have member : c.domain.1 ∈ Multiset.replicate c.degree c.domain.1 :=
    Multiset.mem_replicate.2 ⟨by omega, rfl⟩
  have agree := h.forms_agree regular rfl follows low high low' high'
    (Multiset.card_replicate _ _) member
  rw [Multiset.map_replicate, ← h.domain_eq regular.toSound] at agree
  exact ⟨F, t, t', follows, low, high, low', by rwa [whole], agree⟩

/-- **A curve that closes is seamless**, whatever its domain is. -/
theorem Closes.seamless (h : c.Closes n period) (regular : c.Regular) : c.Seamless := by
  have sound := regular.toSound
  obtain ⟨two, enough, size, degree⟩ := regular.counts
  have whole : c.pointCount - 1 + 1 = c.pointCount := by omega
  obtain ⟨F, t, t', follows, low, high, low', high', agree⟩ := h.exists_forms regular
  refine ⟨definedAt_congr rfl ?_, coordinatePiece (F t), coordinatePiece (F t'),
    sound.isPiece rfl rfl follows le_rfl (by omega) low high,
    sound.isPiece rfl rfl follows (by omega) (by omega) low' high', fun k hk m hm =>
      h.pieces_agree regular follows low high low' (whole ▸ high') hk hm⟩
  rw [regular.definedVector_on rfl rfl follows le_rfl (by omega) low high sound.domain_start.ge
        (sound.domain_start.trans_le (low.trans high).le),
      regular.definedVector_on rfl rfl follows (by omega) (by omega) low' high' ?_ ?_, agree]
  · rw [sound.domain_finish, ← whole]
    exact (low'.trans high').le
  · rw [sound.domain_finish, whole]

section Search

variable [Precision K] [Precision.Exact K]

/-- On a domain as long as the spacing of the numbers the locations that are computed agree. -/
theorem Closes.pointAt_eq (h : c.Closes n period) (regular : c.Regular)
    (wide : Precision.epsilon ≤ c.domain.2 - c.domain.1) :
    c.pointAt c.domain.1 = c.pointAt c.domain.2 := by
  have start := regular.spanAt_start wide
  have finish := regular.spanAt_finish wide
  obtain ⟨F, t, t', follows, low, high, low', high', agree⟩ := h.exists_forms regular
  have vector : c.vectorAt c.domain.1 = c.vectorAt c.domain.2 := by
    rw [regular.vectorAt_eq rfl rfl follows (start ▸ low) (start ▸ high),
        regular.vectorAt_eq rfl rfl follows (finish ▸ low') (finish ▸ high'), agree]
  rw [pointAt, pointAt, vector]

omit [Precision.Exact K] in
/-- Where the knots are spread, the domain is long enough for that. -/
theorem Closes.wide (h : c.Closes n period) (few : c.degree ≤ n) (sound : c.Sound)
    (groups : c.Grouped) : Precision.epsilon ≤ c.domain.2 - c.domain.1 := by
  have two := sound.two_le_order
  have degree : c.degree = c.order - 1 := rfl
  have points := h.pointCount_eq
  have size : c.knots.size = c.pointCount + c.order - 2 := sound.knotCount_eq
  -- the knots from the start to `degree`, which the rules keep apart, lie within one period
  have round := h.knot_eq 0 (by omega)
  have order : c.knots.knot c.degree ≤ c.knots.knot (0 + n) :=
    sound.ordered.knot_le (by omega) (by omega)
  rw [h.domain_eq sound]
  have spread := groups.first_spread sound
  linarith

/-! ## §4. Closed polylines. -/

variable [Analytic K] {points : List (Point K)} {degree : Nat}

variable {ω : Type} [Quadrature K ω] [Scalar ω] [Precision ω]

/-- The closed curve closes, whatever its domain is moved to. -/
theorem exists_closes (length : points.length = n + 1) (three : 3 ≤ n)
    (near : Point.norm (Point.sub (points.headD []) (points.getLastD [])) ≤ Scalar.zeroTolerance)
    (ok : throughPoints points degree = .ok c) : ∃ period, c.Closes n period := by
  obtain ⟨b, curve, moved⟩ := throughPoints_eq_ok ok
  obtain ⟨allowed, periodic⟩ := polylineCurve_closed length three near curve
  have maximum : maxDegree = 11 := rfl
  have closes := closes_periodicUniform periodic
  rw [length_turned length (by omega) (by omega)] at closes
  obtain ⟨valid, -⟩ := polylineCurve_eq_ok curve
  have domain := (regular_of_isValid valid).domain_lt
  rcases moved with rfl | ⟨l, -, moved⟩
  · exact ⟨_, closes⟩
  · obtain ⟨lt, rfl | rfl⟩ := setDomain_eq_ok moved domain
    · exact ⟨_, closes⟩
    · exact ⟨_, closes.mapKnots (Scales.affineMap domain lt)⟩

/-- **The curve of a closed polyline.**

In all numbers its control points are the vertices in a circle, turned so that the seam stays at
the closing one.  In exact numbers its seam is smooth, and the locations and derivatives that are
computed agree as well, unless the domain is shorter than the spacing of the numbers, which it is
not if the curve is valid. -/
theorem throughPoints_closes (length : points.length = n + 1) (three : 3 ≤ n)
    (near : Point.norm (Point.sub (points.headD []) (points.getLastD [])) ≤ Scalar.zeroTolerance)
    (ok : throughPoints points degree = .ok c) :
    (∀ (α ω : Type) [Scalar α] [Precision α] [Analytic α] [Quadrature α ω] [Scalar ω] [Precision ω]
        (points : List (Point α)) (degree n : Nat) (c : Curve α), points.length = n + 1 → 3 ≤ n →
          Point.norm (Point.sub (points.headD []) (points.getLastD [])) ≤ Scalar.zeroTolerance →
          throughPoints points degree = .ok c →
            c.degree = min (min (max degree 1) maxDegree) n
              ∧ c.pointCount = n + c.degree
              ∧ c.isRational = false
              ∧ ∀ i < n + c.degree,
                c.points.vectors[i]? = points[(i + n - (c.degree - 1) / 2) % n]?)
      ∧ c.Seamless
      ∧ (c.isValid = true → Precision.epsilon ≤ c.domain.2 - c.domain.1)
      ∧ (Precision.epsilon ≤ c.domain.2 - c.domain.1 →
        c.pointAt? c.domain.1 = c.pointAt? c.domain.2
          ∧ ∀ count < c.degree, c.derivatives? c.domain.1 count = c.derivatives? c.domain.2 count
            ∧ (c.knotCount + 2 < storageLimit →
              ∃ ders, c.derivatives? c.domain.1 count = some ders)) := by
  obtain ⟨allowed, -, -, -⟩ := throughPoints_circle length three near ok
  obtain ⟨period, closes⟩ := exists_closes length three near ok
  obtain ⟨regular, -, -⟩ := throughPoints_spec ok
  have maximum : maxDegree = 11 := rfl
  have limit : storageLimit = 140737488355328 := rfl
  have measured : c.Measured := ⟨regular.two_le_order, regular.order_le, regular.knotCount_eq,
    regular.sized⟩
  -- the vertices are placed without arithmetic, the seam is smooth because the knots are even
  refine ⟨fun _ _ _ _ _ _ _ _ _ _ _ _ length three near ok =>
      throughPoints_circle length three near ok, closes.seamless regular, fun valid => ?_,
    fun wide => ⟨?_, fun k hk => ⟨?_, fun room => ?_⟩⟩⟩
  · exact closes.wide (by omega) regular.toSound (isValid_iff_regular.1 valid).2.2
  · rw [regular.pointAt?_eq, regular.pointAt?_eq, closes.pointAt_eq regular wide]
  · have period_wide : Precision.epsilon ≤ period := by
      rw [closes.domain_eq regular.toSound] at wide
      linarith
    rw [measured.derivatives?_eq, measured.derivatives?_eq,
        closes.derivatives_eq regular period_wide hk]
  · rw [measured.derivatives?_eq, if_pos ⟨room, by omega,
      KnotVector.descFactorial_lt_of_le (by omega) _⟩]
    exact ⟨_, rfl⟩

end Search

/-- A cubic curve around four vertices on a line, which are turned once. -/
theorem throughPoints_closes_ring :
    let points : List (Point ℚ) := [[0], [2], [6], [4], [0]]
    let c : Curve ℚ := ⟨1, 4, .cartesian [[4], [0], [2], [6], [4], [0], [2]],
      ⟨[-9 / 2, -9 / 4, 0, 9 / 4, 9 / 2, 27 / 4, 9, 45 / 4, 27 / 2]⟩⟩
    points.length = 4 + 1
      ∧ Point.norm (Point.sub (points.headD []) (points.getLastD [])) ≤ Scalar.zeroTolerance
      ∧ throughPoints points 3 = .ok c ∧ c.Seamless
      ∧ c.derivatives? 0 2 = some [[1], [-4 / 9], [32 / 27]]
      ∧ c.derivatives? 9 2 = some [[1], [-4 / 9], [32 / 27]] := by
  intro points c
  have near : Point.norm (Point.sub (points.headD []) (points.getLastD []))
      ≤ (Scalar.zeroTolerance : ℚ) := by decide +kernel
  have ok : throughPoints points 3 = .ok c := eq_ok_of_toOption (by decide +kernel)
  obtain ⟨-, seamless, -, computed⟩ :=
    throughPoints_closes (n := 4) rfl (by decide) near ok
  obtain ⟨-, same⟩ := computed (by decide +kernel)
  have start : c.derivatives? 0 2 = some [[1], [-4 / 9], [32 / 27]] := by decide +kernel
  exact ⟨rfl, near, ok, seamless, start, (same 2 (by decide)).1.symm.trans start⟩

/-- Three vertices that are closer together than the spacing of the numbers: the search takes the
last span at both ends of the domain, and the derivatives differ. -/
theorem throughPoints_tinyTriangle :
    let points : List (Point ℚ) := [[0], [1 / 10 ^ 17], [3 / 10 ^ 17], [0]]
    ∃ c : Curve ℚ, throughPoints points 2 = .ok c ∧ points.length = 3 + 1
      ∧ Point.norm (Point.sub (points.headD []) (points.getLastD [])) ≤ Scalar.zeroTolerance
      ∧ 1 < c.degree
      ∧ c.derivatives? c.domain.1 1 = some [[31 / (2 * 10 ^ 17)], [-11]]
      ∧ c.derivatives? c.domain.2 1 = some [[1 / (2 * 10 ^ 17)], [1]] := by
  intro points
  have ok : throughPoints points 2
      = .ok ⟨1, 3, .cartesian [[0], [1 / 10 ^ 17], [3 / 10 ^ 17], [0], [1 / 10 ^ 17]],
          ⟨[-1 / 10 ^ 17, 0, 1 / 10 ^ 17, 2 / 10 ^ 17, 3 / 10 ^ 17, 4 / 10 ^ 17]⟩⟩ :=
    eq_ok_of_toOption (by decide +kernel)
  exact ⟨_, ok, rfl, by decide +kernel, by decide, by decide +kernel, by decide +kernel⟩

end RationalSpline.Curve
