/-
  RationalSpline.Proofs.Interpolation
  ───────────────────────────────────
  CURVES THROUGH THEIR POINTS.

  The equations of an interpolation are written on padded knots that are put together by
  hand; the curve stores the compact ones and pads them again to be evaluated.  Both ends
  are clamped, so padding restores the very same knots, and every parameter, repeated or
  at an end, gets the same span and the same basis in its equation and in the value of
  the curve.  What solves the equations therefore passes through the points.
-/
import RationalSpline.Proofs.Admission
import RationalSpline.Proofs.LinearSystem
import RationalSpline.Interpolation.Curve

namespace RationalSpline

variable {K : Type} [Field K] [LinearOrder K] {d : Nat}

/-! ## §1. Rows of few coefficients. -/

namespace Equation

theorem weigh_append {as bs : List K} {vs ws : List (Fin d → K)} (h : as.length = vs.length) :
    weigh (as ++ bs) (vs ++ ws) = weigh as vs + weigh bs ws := by
  rw [weigh, List.zipWith_append h, List.sum_append]
  rfl

theorem weigh_zeros (n : Nat) (vs : List (Fin d → K)) :
    weigh (List.replicate n 0) vs = 0 := by
  induction n generalizing vs with
  | zero => rfl
  | succ n ih =>
      cases vs with
      | nil => rfl
      | cons v vs => rw [List.replicate_succ, weigh_cons, ih, zero_smul, add_zero]

end Equation

omit [LinearOrder K] in
/-- Points with so many coordinates are vectors. -/
theorem Point.exists_vectors {points : List (Point K)} (sized : ∀ p ∈ points, p.length = d) :
    ∃ vs : List (Fin d → K), points = vs.map Point.ofVec := by
  refine ⟨points.map (Point.coords d), ?_⟩
  have same := List.map_congr_left (g := id) fun p hp => Point.ofVec_coords (sized p hp)
  rw [List.map_id] at same
  rw [List.map_map]
  exact same.symm

/-- Zeros before and after leave the combination of what stands between. -/
theorem Point.combine_zeros (before after : Nat) {row : List K} {points : List (Point K)}
    (sized : ∀ p ∈ points, p.length = d) (length : before + row.length + after = points.length) :
    Point.combine d (List.replicate before 0 ++ row ++ List.replicate after 0) points
      = Point.combine d row ((points.drop before).take row.length) := by
  obtain ⟨vs, rfl⟩ := Point.exists_vectors sized
  rw [List.length_map] at length
  have cut : vs = vs.take before ++ (vs.drop before).take row.length
      ++ vs.drop (before + row.length) := by
    rw [List.append_assoc, ← List.drop_drop, List.take_append_drop, List.take_append_drop]
  rw [← List.map_drop, ← List.map_take, Point.combine_ofVec, Point.combine_ofVec]
  refine congrArg Point.ofVec ?_
  change Equation.weigh _ _ = Equation.weigh _ _
  conv_lhs => rw [cut]
  rw [Equation.weigh_append (by simp; omega), Equation.weigh_append (by simp; omega),
      Equation.weigh_zeros, Equation.weigh_zeros, zero_add, add_zero]

namespace Curve

/-! ## §2. The knots. -/

section Knots

variable (degree : Nat) (parameters : List K)

/-- The knots between the ends. -/
def innerKnots : List K :=
  (List.range (parameters.length - degree - 1)).map fun i =>
    ((parameters.drop (i + 1)).take degree).foldl (· + ·) 0 * (1 / (degree : K))

/-- The knots as a curve stores them. -/
theorem values_unpadded_averagedKnots :
    (averagedKnots degree parameters).unpadded.values
      = List.replicate degree 0 ++ innerKnots degree parameters ++ List.replicate degree 1 := by
  have whole : (averagedKnots degree parameters).values
      = 0 :: (List.replicate degree 0 ++ innerKnots degree parameters ++ List.replicate degree 1)
        ++ [1] := by
    show List.replicate (degree + 1) 0 ++ innerKnots degree parameters
      ++ List.replicate (degree + 1) 1 = _
    rw [List.replicate_succ, List.replicate_succ']
    simp
  show (averagedKnots degree parameters).values.tail.dropLast = _
  rw [whole, List.cons_append, List.tail_cons, List.dropLast_concat]

theorem size_unpadded_averagedKnots :
    (averagedKnots degree parameters).unpadded.size
      = degree + (parameters.length - degree - 1) + degree := by
  rw [KnotVector.size, values_unpadded_averagedKnots]
  simp [innerKnots, Nat.add_assoc]

/-- The first knots are 0. -/
theorem knot_start_averagedKnots {i : Nat} (h : i < degree) :
    (averagedKnots degree parameters).unpadded.knot i = 0 := by
  rw [KnotVector.knot, values_unpadded_averagedKnots, List.append_assoc,
      List.getD_append _ _ _ _ (by simpa using h)]
  simp [h]

/-- The last knots are 1. -/
theorem knot_finish_averagedKnots {i : Nat} (low : parameters.length - 1 ≤ i)
    (enough : degree + 1 ≤ parameters.length)
    (high : i < degree + (parameters.length - degree - 1) + degree) :
    (averagedKnots degree parameters).unpadded.knot i = 1 := by
  have length : (List.replicate degree 0 ++ innerKnots degree parameters).length
      = degree + (parameters.length - degree - 1) := by
    simp [innerKnots]
  rw [KnotVector.knot, values_unpadded_averagedKnots,
      List.getD_append_right _ _ _ _ (by omega), length]
  simp [show i - (degree + (parameters.length - degree - 1)) < degree by omega]

variable {degree parameters}

/-- **Both ends are clamped, and padding restores the knots.** -/
theorem averagedKnots_clamped (pos : 1 ≤ degree) (enough : degree + 1 ≤ parameters.length) :
    (averagedKnots degree parameters).unpadded.isClamped (degree + 1) .start = true
      ∧ (averagedKnots degree parameters).unpadded.isClamped (degree + 1) .finish = true
      ∧ (averagedKnots degree parameters).unpadded.domain (degree + 1) = (0, 1)
      ∧ (averagedKnots degree parameters).unpadded.padded (degree + 1)
        = averagedKnots degree parameters := by
  have size := size_unpadded_averagedKnots degree parameters
  have first := knot_start_averagedKnots degree parameters (i := 0) (by omega)
  have start := knot_start_averagedKnots degree parameters (i := degree + 1 - 2) (by omega)
  have last := knot_finish_averagedKnots degree parameters
    (i := (averagedKnots degree parameters).unpadded.size - 1) (by omega) enough (by omega)
  have finish := knot_finish_averagedKnots degree parameters
    (i := (averagedKnots degree parameters).unpadded.size + 1 - (degree + 1)) (by omega) enough
    (by omega)
  have clampedStart : (averagedKnots degree parameters).unpadded.isClamped (degree + 1) .start
      = true := by
    rw [KnotVector.isClamped, first, start, beq_self_eq_true]
  have clampedFinish : (averagedKnots degree parameters).unpadded.isClamped (degree + 1) .finish
      = true := by
    rw [KnotVector.isClamped, last, finish, beq_self_eq_true]
  refine ⟨clampedStart, clampedFinish, ?_, ?_⟩
  · rw [KnotVector.domain, start, finish]
  · rw [KnotVector.padded, KnotVector.superfluous, KnotVector.superfluous,
        if_pos (.inl clampedStart), if_pos (.inl clampedFinish)]
    rw [first, last, values_unpadded_averagedKnots]
    refine congrArg KnotVector.mk ?_
    show _ = List.replicate (degree + 1) 0 ++ innerKnots degree parameters
      ++ List.replicate (degree + 1) 1
    rw [List.replicate_succ, List.replicate_succ']
    simp

end Knots

/-! ## §3. The equations. -/

variable [Precision K]

/-- There are as many coefficients as unknowns. -/
theorem square_collocations {U : KnotVector K} {degree : Nat} {parameters : List K}
    {points : List (Point K)} (enough : degree + 1 ≤ points.length)
    (count : parameters.length = points.length) (sized : ∀ p ∈ points, p.length = d) :
    Equation.Square points.length d (collocations U degree parameters points) := by
  refine ⟨by simp [collocations, count], fun e he => ?_, fun e he => ?_⟩
  · obtain ⟨⟨u, p⟩, -, rfl⟩ := List.mem_map.1 he
    have low := (U.span_bounds u (show degree ≤ points.length - 1 by omega)).1
    have high := U.span_le u (show degree ≤ points.length - 1 by omega)
    simp only [collocation, List.length_append, List.length_replicate, KnotVector.length_basisRow]
    omega
  · obtain ⟨⟨u, p⟩, hup, rfl⟩ := List.mem_map.1 he
    exact sized p (List.of_mem_zip hup).2

/-- **The equation of a point says that the spline passes through it.** -/
theorem holds_collocation_iff {S : Spline K} (enough : S.degree + 1 ≤ S.points.length)
    (sized : ∀ x ∈ S.points, x.length = d) (u : K) (p : Point K) :
    (collocation S.knots S.degree S.points.length u p).Holds d S.points ↔ S.value d u = p := by
  have low := (S.knots.span_bounds u (show S.degree ≤ S.points.length - 1 by omega)).1
  have high := S.knots.span_le u (show S.degree ≤ S.points.length - 1 by omega)
  have row := KnotVector.length_basisRow S.knots (S.spanAt u) u S.degree
  change S.degree ≤ S.spanAt u at low
  change S.spanAt u ≤ S.points.length - 1 at high
  have whole := Point.combine_zeros (S.spanAt u - S.degree)
    (S.points.length - S.spanAt u - 1) sized
    (show _ + (S.knots.basisRow (S.spanAt u) u S.degree).length + _ = _ by omega)
  rw [row] at whole
  show Point.combine d (List.replicate (S.spanAt u - S.degree) 0
    ++ S.knots.basisRow (S.spanAt u) u S.degree
    ++ List.replicate (S.points.length - S.spanAt u - 1) 0) S.points = p ↔ _
  rw [whole]
  rfl

/-- A curve of a fitted degree comes from parameters, a solution and a passed check. -/
theorem interpolateBy_eq_ok [Analytic K]
    {solve : List (Equation K) → Option (List (Point K))} {points : List (Point K)}
    {degree : Nat} {style : Parameterization} {c : Curve K}
    (ok : interpolateBy solve points degree style = .ok c) :
    ∃ parameters solution, 1 ≤ degree ∧ degree + 1 ≤ points.length
      ∧ (∀ p ∈ points, p.length = (points.headD []).length)
      ∧ style.parameters? points = some parameters
      ∧ solve (collocations (averagedKnots degree parameters) degree parameters points)
        = some solution
      ∧ c.isValid = true
      ∧ c = { dimension := (points.headD []).length, order := degree + 1,
              points := .cartesian solution,
              knots := (averagedKnots degree parameters).unpadded } := by
  unfold interpolateBy at ok
  split_ifs at ok with range few
  obtain ⟨_, checked, ok⟩ := bind_eq_ok ok
  have sized : ∀ p ∈ points, p.length = (points.headD []).length := by
    unfold checkPoints at checked
    split at checked
    · cases checked
    · next none => simpa using List.findIdx?_eq_none_iff.1 none
  split at ok
  · cases ok
  · next parameters some =>
      dsimp only at ok
      split at ok
      · cases ok
      · next solution solved =>
          obtain ⟨valid, rfl⟩ := admitted_eq_ok ok
          exact ⟨parameters, solution, by omega, by omega, sized, some, solved, valid, rfl⟩

/-- **An interpolating curve passes through every point at its parameter**, whatever solves
its equations.  It has a control point for each point, both ends are clamped, and the domain
is the unit interval. -/
theorem interpolateBy_passes_through [Analytic K]
    {solve : List (Equation K) → Option (List (Point K))} (solver : Equation.IsSolver solve)
    {points : List (Point K)} {degree : Nat} {style : Parameterization} {c : Curve K}
    (ok : interpolateBy solve points degree style = .ok c) :
    ∃ parameters, style.parameters? points = some parameters
      ∧ parameters.length = points.length
      ∧ c.pointCount = points.length ∧ c.order = degree + 1
      ∧ c.isClamped .start = true ∧ c.isClamped .finish = true ∧ c.domain = (0, 1)
      ∧ ∀ i < points.length, c.pointAt? (parameters.getD i 0) = some (points.getD i []) := by
  obtain ⟨parameters, solution, pos, enough, sized, spread, solved, valid, whole⟩ :=
    interpolateBy_eq_ok ok
  have nonempty : points ≠ [] := List.ne_nil_of_length_pos (by omega)
  have count := Parameterization.length_parameters? spread nonempty
  obtain ⟨start, finish, domain, padded⟩ := averagedKnots_clamped pos (count ▸ enough)
  have measured := measured_of_isValid valid
  have points_eq : c.pointCount = points.length := by
    have knotCount := measured.knotCount_eq
    have order := measured.order_le
    have size : c.knotCount = degree + (parameters.length - degree - 1) + degree := by
      rw [whole]
      exact size_unpadded_averagedKnots degree parameters
    have degree_eq : c.order = degree + 1 := by rw [whole]
    omega
  refine ⟨parameters, spread, count, points_eq, by rw [whole], by rw [whole]; exact start,
    by rw [whole]; exact finish, by rw [whole]; exact domain, fun i hi => ?_⟩
  -- the equation of the point
  have inside : i < parameters.length := by omega
  have member : collocation (averagedKnots degree parameters) degree points.length
      (parameters.getD i 0) (points.getD i [])
        ∈ collocations (averagedKnots degree parameters) degree parameters points := by
    refine List.mem_map.2 ⟨(parameters[i], points[i]), ?_, ?_⟩
    · rw [← List.getElem_zip (h := by simp; omega)]
      exact List.getElem_mem _
    · rw [List.getD_eq_getElem _ _ inside, List.getD_eq_getElem _ _ hi]
  have equation := solver (square_collocations enough count sized) solved _ member
  have spline : c.spline = ⟨degree, averagedKnots degree parameters, solution⟩ := by
    rw [whole]
    show Spline.mk _ _ _ = _
    rw [padded]
    rfl
  have size : c.vectorSize = (points.headD []).length := by
    rw [whole]
    rfl
  have rational : c.isRational = false := by
    rw [whole]
    rfl
  have vectors : c.points.vectors = c.spline.points := rfl
  have length : c.spline.points.length = points.length := points_eq
  have solution_eq : solution = c.spline.points := by rw [spline]
  have degree_eq : c.spline.degree = degree := by rw [spline]
  have knots_eq : averagedKnots degree parameters = c.spline.knots := by rw [spline]
  rw [← size, ← length, knots_eq, solution_eq, ← degree_eq,
      holds_collocation_iff (by omega) measured.sized] at equation
  have span : c.hasSpan = true := decide_eq_true measured.order_le
  rw [pointAt?, if_pos span, pointAt, if_neg (by simp [rational]), vectorAt, equation]

/-- A parabola with a knot passes through a corner of its points at the share of the way. -/
theorem interpolateBy_passes_corner :
    let points : List (Point ℚ) := [[0, 0], [3, 4], [3, 6], [6, 10]]
    let c : Curve ℚ :=
      ⟨2, 3, .cartesian [[0, 0], [33 / 10, 19 / 10], [27 / 10, 81 / 10], [6, 10]],
        ⟨[0, 0, 1 / 2, 1, 1]⟩⟩
    interpolateBy Equation.solve? points 2 .chordal = .ok c
      ∧ c.pointAt? (5 / 12) = some [3, 4] := by
  intro points c
  have ok : interpolateBy Equation.solve? points 2 .chordal = .ok c :=
    eq_ok_of_toOption (by decide +kernel)
  obtain ⟨parameters, spread, -, -, -, -, -, -, through⟩ :=
    interpolateBy_passes_through Equation.isSolver_solve? ok
  obtain rfl : [0, 5 / 12, 7 / 12, 1] = parameters :=
    Option.some.inj (Eq.trans (by decide +kernel) spread)
  exact ⟨ok, through 1 (by decide)⟩

end Curve

end RationalSpline
