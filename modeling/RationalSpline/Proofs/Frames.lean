/-
  RationalSpline.Proofs.Frames
  ────────────────────────────
  THE DRIFT OF CARRIED NORMALS.

  A step that turns the normal with the tangent keeps their inner product.  A step that copies
  the normal moves it by at most the tolerance below which tangents count as parallel, and only
  neighbours are compared: what slow turns leave behind adds up, one tolerance for each copy
  (`copiedSteps`).  After two copies a frame need not be orthonormal up to the tolerance.
-/
import RationalSpline.Proofs.Evaluation
import RationalSpline.Proofs.SpaceVectors
import RationalSpline.Curve.Frames

namespace RationalSpline

/-! ## §1. The first normal. -/

section Seed

/-- A running choice ends at a smallest value. -/
theorem foldl_least {β : Type} (f : β → ℝ) (values : List β) (first : β) :
    values.foldl (fun best v => if f v < f best then v else best) first ∈ first :: values
      ∧ ∀ v ∈ first :: values,
        f (values.foldl (fun best v => if f v < f best then v else best) first) ≤ f v := by
  induction values generalizing first with
  | nil => simp
  | cons v rest ih =>
      rw [List.foldl_cons]
      split_ifs with less
      · obtain ⟨member, least⟩ := ih v
        refine ⟨List.mem_cons_of_mem _ member, List.forall_mem_cons.2 ⟨?_, least⟩⟩
        exact (least v List.mem_cons_self).trans less.le
      · obtain ⟨member, least⟩ := ih first
        obtain ⟨bound, rest⟩ := List.forall_mem_cons.1 least
        refine ⟨?_, List.forall_mem_cons.2 ⟨bound, List.forall_mem_cons.2
          ⟨bound.trans (not_lt.1 less), rest⟩⟩⟩
        rcases List.mem_cons.1 member with same | inside
        · rw [same]
          exact List.mem_cons_self
        · exact List.mem_cons_of_mem _ (List.mem_cons_of_mem _ inside)

/-- The axis that is chosen is a unit vector, and no axis is closer to being orthogonal. -/
theorem seedAxis_spec (tangent : Vec3 ℝ) :
    (seedAxis tangent).norm = 1
      ∧ ∀ axis ∈ Vec3.axes, |tangent.dot (seedAxis tangent)| ≤ |tangent.dot axis| := by
  obtain ⟨member, least⟩ := foldl_least (fun axis => Scalar.abs (tangent.dot axis))
    Vec3.axes.tail (Vec3.axes.headD .zero)
  have whole : Vec3.axes.headD .zero :: Vec3.axes.tail = (Vec3.axes : List (Vec3 ℝ)) := rfl
  rw [whole] at member least
  refine ⟨?_, fun axis h => ?_⟩
  · have unit : ∀ axis ∈ (Vec3.axes : List (Vec3 ℝ)), axis.norm = 1 := by
      simp [Vec3.axes, Vec3.norm_eq_one_iff, Vec3.dot]
    exact unit _ member
  · rw [← Scalar.abs_eq, ← Scalar.abs_eq]
    exact least axis h

variable {tangent : Vec3 ℝ} (unit : tangent.norm = 1)
include unit

/-- It is not parallel to the tangent. -/
theorem norm_cross_seedAxis_pos : 0 < (tangent.cross (seedAxis tangent)).norm := by
  obtain ⟨seed, least⟩ := seedAxis_spec tangent
  set a := tangent.dot (seedAxis tangent) with ha
  have one := tangent.norm_eq_one_iff.1 unit
  have whole : tangent.x ^ 2 + tangent.y ^ 2 + tangent.z ^ 2 = 1 := by
    rw [← one, Vec3.dot]
    ring
  have x : a ^ 2 ≤ tangent.x ^ 2 := sq_le_sq.2 (by
    simpa [Vec3.dot] using least ⟨1, 0, 0⟩ (by simp [Vec3.axes]))
  have y : a ^ 2 ≤ tangent.y ^ 2 := sq_le_sq.2 (by
    simpa [Vec3.dot] using least ⟨0, 1, 0⟩ (by simp [Vec3.axes]))
  have z : a ^ 2 ≤ tangent.z ^ 2 := sq_le_sq.2 (by
    simpa [Vec3.dot] using least ⟨0, 0, 1⟩ (by simp [Vec3.axes]))
  -- the least of three squares with the sum 1
  refine Vec3.norm_cross_pos unit seed (abs_lt.2 (abs_lt_of_sq_lt_sq' ?_ zero_le_one))
  linarith

/-- **The first normal is a unit vector, orthogonal to the tangent.** -/
theorem firstNormal_spec :
    (firstNormal tangent).norm = 1 ∧ tangent.dot (firstNormal tangent) = 0 := by
  have pos := norm_cross_seedAxis_pos unit
  have second := Vec3.norm_cross_of_orthogonal unit (Vec3.norm_normalize pos)
    (Vec3.dot_normalize_eq_zero (Vec3.dot_cross_left _ _))
  refine ⟨Vec3.norm_normalize (second ▸ one_pos), ?_⟩
  exact Vec3.dot_normalize_eq_zero (Vec3.dot_cross_left _ _)

end Seed

/-! ## §2. One step. -/

section Transport

variable [Precision ℝ] [Precision.Spaced ℝ] {p q n : Vec3 ℝ}

omit [Precision.Spaced ℝ] in
theorem carryNormal_of_le (parallel : (p.cross q).norm ≤ Precision.epsilon) :
    carryNormal p q n = n :=
  if_neg (not_lt.2 parallel)

omit [Precision.Spaced ℝ] in
/-- A step that turns is the rotation by the angle between the tangents. -/
theorem carryNormal_of_lt (hp : p.norm = 1) (hq : q.norm = 1)
    (turn : Precision.epsilon < (p.cross q).norm) :
    carryNormal p q n = (p.cross q).normalize.rotate (Real.arccos (p.dot q)) n := by
  have range := abs_le.1 ((p.abs_dot_le q).trans_eq (by rw [hp, hq, one_mul]))
  have clamped : Scalar.clamp (-1) 1 (p.dot q) = p.dot q := by
    simp [Scalar.clamp, not_lt.2 range.1, not_lt.2 range.2]
  show (if _ then Vec3.rotate _ (Real.arccos (Scalar.clamp (-1) 1 (p.dot q))) n else _) = _
  rw [if_pos turn, clamped]

/-- A step keeps the length of the normal. -/
theorem norm_carryNormal (hp : p.norm = 1) (hq : q.norm = 1) :
    (carryNormal p q n).norm = n.norm := by
  rcases le_or_gt (p.cross q).norm Precision.epsilon with parallel | turn
  · rw [carryNormal_of_le parallel]
  · rw [carryNormal_of_lt hp hq turn]
    exact Vec3.norm_rotate (Vec3.norm_normalize (Precision.Spaced.epsilon_nonneg.trans_lt turn)) _ _

/-- **What a step adds to the drift:** nothing when it turns, at most the tolerance when it
copies. -/
theorem abs_dot_carryNormal_le (hp : p.norm = 1) (hq : q.norm = 1) (hn : n.norm = 1) :
    |q.dot (carryNormal p q n)|
      ≤ |p.dot n| + if (p.cross q).norm ≤ Precision.epsilon then Precision.epsilon else 0 := by
  have one := p.norm_eq_one_iff.1 hp
  split_ifs with parallel
  · rw [carryNormal_of_le parallel]
    -- what `q` has across `p` is short, and along `p` the drift does not grow
    have split : q.dot n = (p.cross q).dot (p.cross n) + p.dot q * p.dot n := by
      rw [Vec3.cross_dot_cross, one]
      ring
    have across : |(p.cross q).dot (p.cross n)| ≤ Precision.epsilon * 1 :=
      (Vec3.abs_dot_le _ _).trans (mul_le_mul parallel
        ((p.norm_cross_le n).trans_eq (by rw [hp, hn, one_mul])) (Vec3.norm_nonneg _)
        Precision.Spaced.epsilon_nonneg)
    have along : |p.dot q * p.dot n| ≤ 1 * |p.dot n| := by
      rw [abs_mul]
      exact mul_le_mul_of_nonneg_right ((p.abs_dot_le q).trans_eq (by rw [hp, hq, one_mul]))
        (abs_nonneg _)
    rw [split]
    linarith [abs_add_le ((p.cross q).dot (p.cross n)) (p.dot q * p.dot n)]
  · have turn := not_le.1 parallel
    have pos := Precision.Spaced.epsilon_nonneg.trans_lt turn
    have turned := Vec3.rotate_eq_of_angle hp hq pos
    rw [carryNormal_of_lt hp hq turn, add_zero]
    refine le_of_eq (congrArg abs ?_)
    calc q.dot ((p.cross q).normalize.rotate (Real.arccos (p.dot q)) n)
        = ((p.cross q).normalize.rotate (Real.arccos (p.dot q)) p).dot
          ((p.cross q).normalize.rotate (Real.arccos (p.dot q)) n) := by rw [turned]
      _ = p.dot n := Vec3.rotate_dot_rotate (Vec3.norm_normalize pos) _ _ _

/-! ## §3. A run of steps. -/

/-- The number of steps among the first `k` that copy the normal. -/
noncomputable def copiedSteps : List (Vec3 ℝ) → Nat → Nat
  | p :: q :: rest, k + 1 =>
      copiedSteps (q :: rest) k + if (p.cross q).norm ≤ Precision.epsilon then 1 else 0
  | _, _ => 0

/-- **Along a run the normal stays a unit vector and drifts by one tolerance for each copy.** -/
theorem carryNormals_spec {rest : List (Vec3 ℝ)} (hp : p.norm = 1) (units : ∀ v ∈ rest, v.norm = 1)
    (hn : n.norm = 1) {k : Nat} {v m : Vec3 ℝ} (tangent : (p :: rest)[k]? = some v)
    (normal : (carryNormals p n rest)[k]? = some m) :
    m.norm = 1 ∧ |v.dot m| ≤ |p.dot n| + copiedSteps (p :: rest) k * Precision.epsilon := by
  -- on the steps that remain, each of which takes its drift to the next
  induction rest generalizing p n k with
  | nil =>
      obtain rfl : k = 0 := by
        obtain ⟨inside, -⟩ := List.getElem?_eq_some_iff.1 tangent
        simpa using inside
      obtain rfl := Option.some.inj tangent
      obtain rfl := Option.some.inj normal
      exact ⟨hn, by simp [copiedSteps]⟩
  | cons q rest ih =>
      cases k with
      | zero =>
          obtain rfl := Option.some.inj tangent
          obtain rfl := Option.some.inj normal
          exact ⟨hn, by simp [copiedSteps]⟩
      | succ k =>
          obtain ⟨hq, units⟩ := List.forall_mem_cons.1 units
          have step := abs_dot_carryNormal_le hp hq hn
          obtain ⟨unit, drift⟩ := ih hq units ((norm_carryNormal hp hq).trans hn) tangent normal
          refine ⟨unit, drift.trans ?_⟩
          rw [copiedSteps]
          split_ifs at step ⊢ <;> push_cast <;> linarith

omit [Precision.Spaced ℝ] in
/-- However far the tangent turns altogether: as long as no neighbours are far apart, every
normal is the first. -/
theorem carryNormals_of_parallel {rest : List (Vec3 ℝ)}
    (parallel : (p :: rest).IsChain fun v w => (v.cross w).norm ≤ Precision.epsilon) :
    carryNormals p n rest = List.replicate (rest.length + 1) n := by
  induction rest generalizing p with
  | nil => rfl
  | cons q rest ih =>
      obtain ⟨step, later⟩ := List.isChain_cons_cons.1 parallel
      rw [carryNormals, carryNormal_of_le step, ih later]
      rfl

/-- The normals along several tangents. -/
noncomputable def normalsAlong : List (Vec3 ℝ) → List (Vec3 ℝ)
  | [] => []
  | first :: rest => carryNormals first (firstNormal first) rest

omit [Precision.Spaced ℝ] in
theorem length_normalsAlong (tangents : List (Vec3 ℝ)) :
    (normalsAlong tangents).length = tangents.length := by
  cases tangents with
  | nil => rfl
  | cons first rest => exact length_carryNormals _ _ _

/-- The first normal does not drift, so all drift comes from copies. -/
theorem normalsAlong_spec {tangents : List (Vec3 ℝ)} (units : ∀ v ∈ tangents, v.norm = 1)
    {k : Nat} {v m : Vec3 ℝ} (tangent : tangents[k]? = some v)
    (normal : (normalsAlong tangents)[k]? = some m) :
    m.norm = 1 ∧ |v.dot m| ≤ (copiedSteps tangents k : ℝ) * Precision.epsilon := by
  cases tangents with
  | nil => cases tangent
  | cons first rest =>
      obtain ⟨unit, units⟩ := List.forall_mem_cons.1 units
      obtain ⟨unit', orthogonal⟩ := firstNormal_spec unit
      have run := carryNormals_spec unit units unit' tangent normal
      rwa [orthogonal, abs_zero, zero_add] at run

end Transport

/-! ## §4. Frames. -/

namespace Curve

section Frames

variable [Precision ℝ] {c : Curve ℝ} {parameters : List ℝ} {fs : List (Frame ℝ)}

/-- The unit vector along the tangent. -/
noncomputable def directionAt (c : Curve ℝ) (t : ℝ) : Vec3 ℝ :=
  (Vec3.ofPoint (c.tangentAt t)).normalize

/-- Unit tangents are there where the tangents do not vanish. -/
theorem unitTangents_eq_ok {tangents : List (Vec3 ℝ)}
    (ok : c.unitTangents parameters = .ok tangents) :
    tangents = parameters.map c.directionAt
      ∧ ∀ t ∈ parameters, Precision.epsilon < (Vec3.ofPoint (c.tangentAt t)).norm := by
  induction parameters generalizing tangents with
  | nil => exact ⟨(Except.ok.inj ok).symm, by simp⟩
  | cons t ts ih =>
      unfold unitTangents at ok
      split at ok
      · cases ok
      · next tangent span =>
          obtain rfl : c.tangentAt t = tangent := by
            unfold tangentAt? at span
            split_ifs at span
            exact Option.some.inj span
          split at ok
          · cases ok
          · next v found =>
              obtain ⟨long, rfl⟩ := Vec3.normalize?_eq_some.1 found
              cases later : c.unitTangents ts with
              | error e =>
                  rw [later] at ok
                  cases ok
              | ok vs =>
                  rw [later] at ok
                  obtain ⟨rfl, all⟩ := ih later
                  exact ⟨(Except.ok.inj ok).symm, List.forall_mem_cons.2 ⟨long, all⟩⟩

/-- Tangents that do not vanish have directions. -/
theorem unitTangents_of_long (span : c.hasSpan = true)
    (long : ∀ t ∈ parameters, Precision.epsilon < (Vec3.ofPoint (c.tangentAt t)).norm) :
    c.unitTangents parameters = .ok (parameters.map c.directionAt) := by
  induction parameters with
  | nil => rfl
  | cons t ts ih =>
      obtain ⟨here, later⟩ := List.forall_mem_cons.1 long
      have tangent : c.tangentAt? t = some (c.tangentAt t) := if_pos span
      have direction := Vec3.normalize?_eq_some.2 ⟨here, rfl⟩
      rw [unitTangents, tangent]
      simp only [direction, ih later]
      rfl

/-- The frames of the unit tangents and of the normals along them. -/
noncomputable def framesAlong (c : Curve ℝ) (parameters : List ℝ) : List (Frame ℝ) :=
  (parameters.zip ((parameters.map c.directionAt).zip
      (normalsAlong (parameters.map c.directionAt)))).map
    fun (t, tangent, normal) => c.frameOf t tangent normal

theorem map_tangent_framesAlong (c : Curve ℝ) (parameters : List ℝ) :
    (c.framesAlong parameters).map Frame.tangent = parameters.map c.directionAt := by
  rw [framesAlong, List.map_map]
  show (parameters.zip _).map (Prod.fst ∘ Prod.snd) = _
  rw [← List.map_map, List.map_snd_zip, List.map_fst_zip]
  · rw [length_normalsAlong]
  · simp [length_normalsAlong]

theorem frames_eq_ok (ok : c.frames parameters = .ok fs) :
    (∀ t ∈ parameters, Precision.epsilon < (Vec3.ofPoint (c.tangentAt t)).norm)
      ∧ fs = c.framesAlong parameters := by
  unfold frames at ok
  split_ifs at ok
  split at ok
  · cases ok
  · next units =>
      obtain ⟨none, long⟩ := unitTangents_eq_ok units
      refine ⟨long, ?_⟩
      rw [framesAlong, ← none, ← Except.ok.inj ok]
      simp
  · next first rest units =>
      obtain ⟨some, long⟩ := unitTangents_eq_ok units
      refine ⟨long, ?_⟩
      rw [framesAlong, ← some, ← Except.ok.inj ok]
      rfl

/-- **A space curve has frames wherever its tangent does not vanish.** -/
theorem frames_of_long (space : c.dimension = 3) (span : c.hasSpan = true)
    (long : ∀ t ∈ parameters, Precision.epsilon < (Vec3.ofPoint (c.tangentAt t)).norm) :
    c.frames parameters = .ok (c.framesAlong parameters) := by
  have units := unitTangents_of_long span long
  rw [frames, if_neg (not_not.2 space), units]
  cases parameters with
  | nil => rfl
  | cons t ts => rfl

variable [Precision.Spaced ℝ]

/-- **Frames drift by one tolerance for each copied normal.**  Whenever there are frames, there
is one for each parameter, at the point of the curve; its tangent is the direction of the first
derivative, its normal is a unit vector, its binormal is the direction of their product and
orthogonal to both.  Tangent and normal are orthogonal up to as many tolerances as normals were
copied on the way: exactly, as long as every step turned.  While that is less than 1, the
binormal is a unit vector as well. -/
theorem frames_drift (ok : c.frames parameters = .ok fs) :
    fs.length = parameters.length
      ∧ ∀ k f, fs[k]? = some f → ∃ t, parameters[k]? = some t
        ∧ f.position = Vec3.ofPoint (c.pointAt t)
        ∧ Precision.epsilon < (Vec3.ofPoint (c.tangentAt t)).norm
        ∧ f.tangent = (Vec3.ofPoint (c.tangentAt t)).normalize ∧ f.tangent.norm = 1
        ∧ f.normal.norm = 1
        ∧ |f.tangent.dot f.normal|
          ≤ (copiedSteps (fs.map Frame.tangent) k : ℝ) * Precision.epsilon
        ∧ f.binormal = (f.tangent.cross f.normal).normalize
        ∧ f.tangent.dot f.binormal = 0 ∧ f.normal.dot f.binormal = 0
        ∧ ((copiedSteps (fs.map Frame.tangent) k : ℝ) * Precision.epsilon < 1
          → f.binormal.norm = 1) := by
  obtain ⟨long, rfl⟩ := frames_eq_ok ok
  have units : ∀ v ∈ parameters.map c.directionAt, v.norm = 1 := by
    intro v hv
    obtain ⟨t, ht, rfl⟩ := List.mem_map.1 hv
    exact Vec3.norm_normalize (Precision.Spaced.epsilon_nonneg.trans_lt (long t ht))
  refine ⟨by simp [framesAlong, length_normalsAlong], fun k f frame => ?_⟩
  rw [map_tangent_framesAlong]
  rw [framesAlong, List.getElem?_map, Option.map_eq_some_iff] at frame
  obtain ⟨⟨t, v, m⟩, entry, rfl⟩ := frame
  obtain ⟨parameter, entry⟩ := List.getElem?_zip_eq_some.1 entry
  obtain ⟨tangent, normal⟩ := List.getElem?_zip_eq_some.1 entry
  obtain ⟨unit, drift⟩ := normalsAlong_spec units tangent normal
  have direction : v = c.directionAt t := by
    rw [List.getElem?_map, parameter] at tangent
    exact (Option.some.inj tangent).symm
  exact ⟨t, parameter, rfl, long t (List.mem_of_getElem? parameter), direction,
    units v (List.mem_of_getElem? tangent), unit, drift, rfl,
    Vec3.dot_normalize_eq_zero (Vec3.dot_cross_left _ _),
    Vec3.dot_normalize_eq_zero (Vec3.dot_cross_right _ _), fun small =>
      Vec3.norm_normalize (Vec3.norm_cross_pos (units v (List.mem_of_getElem? tangent)) unit
        (drift.trans_lt small))⟩

end Frames

/-! ## §5. A gentle turn. -/

/-- A parabola of space, which starts along the first axis. -/
noncomputable def gentleTurn : Curve ℝ where
  dimension := 3
  order := 3
  points := .cartesian [[-1, 0, 0], [0, 0, 0], [1, 1, 0]]
  knots := ⟨[0, 0, 1, 1]⟩

theorem isValid_gentleTurn : gentleTurn.isValid = true := by
  have epsilon : (Precision.epsilon : ℝ) = 1 / 4503599627370496 := rfl
  refine isValid_iff_exact.2 ⟨by decide, by decide, by decide, ?_, ?_⟩
  · exact ControlPoints.forall_weights_pos_iff.2 (ControlPoints.positive_cartesian _)
  · norm_num [knotDefect?, gentleTurn, KnotVector.knot, KnotVector.isNonDecreasing,
      Sequence.neighbours, KnotVector.multiplicities, KnotVector.groupFrom,
      KnotMultiplicity.increment, Scalar.abs_eq, epsilon, Precision.Exact.isFinite, pointCount,
      ControlPoints.length, ControlPoints.vectors, Curve.degree]

theorem tangentAt_gentleTurn (t : ℝ) : gentleTurn.tangentAt t = [2, 2 * t, 0] := by
  have regular := regular_of_isValid isValid_gentleTurn
  -- there is one span, and the search finds it
  have span : gentleTurn.spline.spanAt t = 2 := by
    obtain ⟨low, high, -⟩ := regular.spanAt_spec t
    have low : 2 ≤ gentleTurn.spline.spanAt t := low
    have high : gentleTurn.spline.spanAt t < 3 := high
    omega
  have knots : gentleTurn.spline.knots = ⟨[0, 0, 0, 1, 1, 1]⟩ := by
    norm_num [gentleTurn, spline, KnotVector.padded, KnotVector.superfluous, KnotVector.knot,
      KnotVector.isClamped, KnotVector.size]
  have row : (⟨[0, 0, 0, 1, 1, 1]⟩ : KnotVector ℝ).derivativeRow 2 t 2 1
      = [2 * t - 2, 2 - 4 * t, 2 * t] := by
    norm_num [KnotVector.derivativeRow, KnotVector.fallingFactorial, KnotVector.reducedDerivative,
      KnotVector.shares, KnotVector.differences, KnotVector.nextDifference, KnotVector.support,
      KnotVector.above, KnotVector.below, KnotVector.basisRow, KnotVector.raiseRow,
      KnotVector.knot, List.range_succ]
    exact ⟨by ring, by ring, by ring⟩
  have window : gentleTurn.spline.window 2 = [[-1, 0, 0], [0, 0, 0], [1, 1, 0]] := rfl
  have value : gentleTurn.tangentAt t
      = Point.combine 3 (gentleTurn.spline.knots.derivativeRow (gentleTurn.spline.spanAt t) t 2 1)
        (gentleTurn.spline.window (gentleTurn.spline.spanAt t)) := rfl
  rw [value, span, knots, row, window]
  simp only [Point.combine, Point.zero, Point.add, Point.scale, List.replicate, List.zip_cons_cons,
    List.zip_nil_right, List.foldl_cons, List.foldl_nil, List.map_cons, List.map_nil,
    List.zipWith_cons_cons, List.zipWith_nil_right, List.cons.injEq, and_true]
  exact ⟨by ring, by ring, by ring⟩

/-- The length of the tangent. -/
theorem norm_tangentAt_gentleTurn (t : ℝ) :
    (Vec3.ofPoint (gentleTurn.tangentAt t)).norm = 2 * Real.sqrt (1 + t ^ 2) := by
  rw [tangentAt_gentleTurn]
  show Real.sqrt (2 * 2 + 2 * t * (2 * t) + 0 * 0) = _
  rw [show 2 * 2 + 2 * t * (2 * t) + 0 * 0 = 2 ^ 2 * (1 + t ^ 2) by ring,
      Real.sqrt_mul (sq_nonneg 2), Real.sqrt_sq two_pos.le]

theorem one_le_sqrt (t : ℝ) : 1 ≤ Real.sqrt (1 + t ^ 2) :=
  Real.one_le_sqrt.2 (le_add_of_nonneg_right (sq_nonneg t))

theorem directionAt_gentleTurn (t : ℝ) :
    gentleTurn.directionAt t = (⟨1, t, 0⟩ : Vec3 ℝ).divide (Real.sqrt (1 + t ^ 2)) := by
  have root := (one_pos.trans_le (one_le_sqrt t)).ne'
  rw [directionAt, Vec3.normalize, norm_tangentAt_gentleTurn, tangentAt_gentleTurn]
  show Vec3.divide ⟨2, 2 * t, 0⟩ _ = _
  simp only [Vec3.divide, Vec3.mk.injEq, zero_div, and_true]
  exact ⟨by field_simp, by field_simp⟩

/-- How far the direction turns. -/
theorem norm_cross_gentleTurn (s t : ℝ) :
    ((gentleTurn.directionAt s).cross (gentleTurn.directionAt t)).norm
      = |t - s| / (Real.sqrt (1 + s ^ 2) * Real.sqrt (1 + t ^ 2)) := by
  set a := Real.sqrt (1 + s ^ 2) with ha
  set b := Real.sqrt (1 + t ^ 2) with hb
  have pos : 0 < a * b := mul_pos (one_pos.trans_le (one_le_sqrt s))
    (one_pos.trans_le (one_le_sqrt t))
  have area : (gentleTurn.directionAt s).cross (gentleTurn.directionAt t)
      = ⟨0, 0, (t - s) / (a * b)⟩ := by
    rw [directionAt_gentleTurn, directionAt_gentleTurn]
    simp only [Vec3.divide, Vec3.cross, Vec3.mk.injEq]
    exact ⟨by ring, by ring, by rw [← ha, ← hb]; field_simp⟩
  rw [area, Vec3.norm_third, abs_div, abs_of_pos pos]

/-- Where the parameters are close, so are the directions. -/
theorem norm_cross_gentleTurn_le (s t : ℝ) :
    ((gentleTurn.directionAt s).cross (gentleTurn.directionAt t)).norm ≤ |t - s| := by
  rw [norm_cross_gentleTurn]
  exact div_le_self (abs_nonneg _) (one_le_mul_of_one_le_of_one_le (one_le_sqrt s) (one_le_sqrt t))

theorem frames_gentleTurn (parameters : List ℝ) :
    gentleTurn.frames parameters = .ok (gentleTurn.framesAlong parameters) :=
  frames_of_long rfl rfl fun t _ => by
    rw [norm_tangentAt_gentleTurn]
    linarith [Precision.epsilon_lt_half, one_le_sqrt t]

/-- The first normal of the gentle turn points along the second axis. -/
theorem firstNormal_gentleTurn : firstNormal (gentleTurn.directionAt 0) = ⟨0, -1, 0⟩ := by
  have tangent : gentleTurn.directionAt 0 = ⟨1, 0, 0⟩ := by
    rw [directionAt_gentleTurn]
    simp [Vec3.divide]
  have seed : seedAxis (⟨1, 0, 0⟩ : Vec3 ℝ) = ⟨0, 1, 0⟩ := by
    simp [seedAxis, Vec3.axes, Vec3.dot, Scalar.abs_eq]
  have first : (⟨1, 0, 0⟩ : Vec3 ℝ).cross ⟨0, 1, 0⟩ = ⟨0, 0, 1⟩ := by norm_num [Vec3.cross]
  have second : (⟨1, 0, 0⟩ : Vec3 ℝ).cross ⟨0, 0, 1⟩ = ⟨0, -1, 0⟩ := by norm_num [Vec3.cross]
  have unit : (⟨0, 0, 1⟩ : Vec3 ℝ).norm = 1 := by rw [Vec3.norm_third, abs_one]
  have unit' : (⟨0, -1, 0⟩ : Vec3 ℝ).norm = 1 := (Vec3.norm_eq_one_iff _).2 (by norm_num [Vec3.dot])
  rw [tangent, firstNormal, seed, first, Vec3.normalize_of_norm_eq_one unit, second,
      Vec3.normalize_of_norm_eq_one unit']

/-- A large turn is made, and leaves the normal orthogonal. -/
theorem frames_drift_gentleTurn :
    ∃ fs, gentleTurn.frames [0, 1] = .ok fs
      ∧ ∃ f, fs[1]? = some f ∧ f.normal.norm = 1 ∧ f.tangent.dot f.normal = 0 := by
  obtain ⟨length, all⟩ := frames_drift (frames_gentleTurn [0, 1])
  obtain ⟨f, frame⟩ : ∃ f, (gentleTurn.framesAlong [0, 1])[1]? = some f :=
    ⟨_, List.getElem?_eq_getElem (by rw [length]; decide)⟩
  obtain ⟨t, -, -, -, -, -, unit, drift, -⟩ := all 1 f frame
  refine ⟨_, frames_gentleTurn _, f, frame, unit, ?_⟩
  have turn : Precision.epsilon
      < ((gentleTurn.directionAt 0).cross (gentleTurn.directionAt 1)).norm := by
    have two : Real.sqrt (1 + 1 ^ 2) ≤ 2 := Real.sqrt_le_iff.2 ⟨by norm_num, by norm_num⟩
    have pos := one_pos.trans_le (one_le_sqrt 1)
    rw [norm_cross_gentleTurn, sub_zero, abs_one, zero_pow two_ne_zero, add_zero, Real.sqrt_one,
        one_mul]
    refine Precision.epsilon_lt_half.trans_le (one_div_le_one_div_of_le pos two)
  rw [map_tangent_framesAlong, List.map_cons, List.map_cons, copiedSteps, if_neg (not_le.2 turn)]
    at drift
  simpa [copiedSteps] using drift

/-- **Two steps that are too short to turn leave a drift beyond the tolerance.** -/
theorem gentleTurn_frames_not_orthogonal :
    gentleTurn.isValid = true ∧ gentleTurn.dimension = 3
      ∧ ∃ fs, gentleTurn.frames [0, Precision.epsilon, 2 * Precision.epsilon] = .ok fs
        ∧ ∃ f ∈ fs, ¬|f.tangent.dot f.normal| ≤ Precision.epsilon := by
  have pos : (0 : ℝ) < Precision.epsilon := by
    show (0 : ℝ) < 1 / 4503599627370496
    norm_num
  set e : ℝ := Precision.epsilon with he
  have close : ([0, e, 2 * e].map gentleTurn.directionAt).IsChain fun v w =>
      (v.cross w).norm ≤ Precision.epsilon := by
    have first := (norm_cross_gentleTurn_le 0 e).trans_eq (by rw [sub_zero, abs_of_pos pos])
    have second := (norm_cross_gentleTurn_le e (2 * e)).trans_eq (by
      rw [two_mul, add_sub_cancel_right, abs_of_pos pos])
    simpa [← he] using ⟨first, second⟩
  have normals := carryNormals_of_parallel (n := firstNormal (gentleTurn.directionAt 0)) close
  rw [firstNormal_gentleTurn] at normals
  refine ⟨isValid_gentleTurn, rfl, _, frames_gentleTurn _,
    gentleTurn.frameOf (2 * e) (gentleTurn.directionAt (2 * e)) ⟨0, -1, 0⟩, ?_, ?_⟩
  · simp only [framesAlong, normalsAlong, List.map_cons, List.map_nil, firstNormal_gentleTurn]
    simp only [List.map_cons, List.map_nil] at normals
    simp [normals, List.replicate]
  · have root := one_pos.trans_le (one_le_sqrt (2 * e))
    have short : Real.sqrt (1 + (2 * e) ^ 2) < 2 := by
      refine (Real.sqrt_lt' two_pos).2 ?_
      nlinarith [Precision.epsilon_lt_half]
    have drift : (gentleTurn.directionAt (2 * e)).dot ⟨0, -1, 0⟩
        = -(2 * e / Real.sqrt (1 + (2 * e) ^ 2)) := by
      rw [directionAt_gentleTurn]
      simp [Vec3.divide, Vec3.dot]
    show ¬|(gentleTurn.directionAt (2 * e)).dot ⟨0, -1, 0⟩| ≤ e
    rw [drift, abs_neg, abs_of_pos (div_pos (mul_pos two_pos pos) root), not_le, lt_div_iff₀ root]
    nlinarith

end Curve

end RationalSpline
