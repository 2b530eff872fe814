/-
  RationalSpline.Proofs.Elevation
  ───────────────────────────────
  RAISING THE ORDER OF A CURVE.

  Raising the order of a valid curve succeeds, clamps its ends, and repeats every break
  so many times more.  Its values stay unless a single interior knot is followed by a
  triple one and the order goes from 11 to 12: there a sweep reaches past the copies of
  the single knot.  On such knots even a straight line is bent, so the exception is
  exact.
-/
import RationalSpline.Proofs.BentLine
import RationalSpline.Proofs.RaisedCurve

namespace RationalSpline

open Spline (Clamped raisedKnots AllSized startFront raiseWithin OnLine straight)

variable {K : Type} [Field K] [LinearOrder K]

namespace Curve

/-! ## §1. What raising is to do. -/

/-- The shape of `c` in the order `target`. -/
structure RaisedShape (c : Curve K) (target : Nat) (e : Curve K) : Prop where
  /-- The counts fit, the knots are in order, the vectors have one size. -/
  sound : e.Sound
  /-- The new order. -/
  order : e.order = target
  /-- The number of coordinates stays. -/
  dimension : e.dimension = c.dimension
  /-- The meaning of the vectors stays. -/
  rational : e.isRational = c.isRational
  /-- The parameters stay. -/
  domain : e.domain = c.domain
  /-- Both ends are clamped. -/
  clamped : ∀ side, e.isClamped side = true
  /-- Every distinct interior knot is repeated once more for each degree gained. -/
  knots : e.knots.values = List.replicate (target - 1) c.domain.1
    ++ ((KnotVector.runs c.interior).flatMap fun m =>
      List.replicate (m.multiplicity + (target - c.order)) m.knot)
    ++ List.replicate (target - 1) c.domain.2
  /-- Every span gives a control point more for each degree gained. -/
  pointCount : e.pointCount = c.pointCount + (target - c.order) * c.spanCount

/-- The same curve in the order `target`. -/
structure RaisedCurve (c : Curve K) (target : Nat) (e : Curve K) : Prop
    extends RaisedShape c target e where
  /-- The values stay. -/
  value : ∀ t, c.domain.1 ≤ t → t ≤ c.domain.2 → e.definedAt t = c.definedAt t

/-- The curves differ in their control points alone. -/
structure Alike (c c' : Curve K) : Prop where
  /-- The same number of coordinates. -/
  dimension : c'.dimension = c.dimension
  /-- The same order. -/
  order : c'.order = c.order
  /-- The same meaning of the vectors. -/
  rational : c'.isRational = c.isRational
  /-- The same knots. -/
  knots : c'.knots = c.knots

/-- A single interior knot is followed by a triple one, and the degree goes from 10 to 11. -/
def Overreaches (c : Curve K) (target : Nat) : Prop :=
  c.order = 11 ∧ target = 12
    ∧ ∃ x y, [⟨x, 1⟩, ⟨y, 3⟩] <:+: KnotVector.runs c.interior

theorem Alike.domain {c c' : Curve K} (h : Alike c c') : c'.domain = c.domain := by
  show c'.knots.domain c'.order = c.knots.domain c.order
  rw [h.knots, h.order]

theorem Alike.overreaches_iff {c c' : Curve K} (h : Alike c c') (target : Nat) :
    c'.Overreaches target ↔ c.Overreaches target := by
  rw [Overreaches, Overreaches, interior, interior, h.order, h.knots, h.domain]

/-! ## §2. The run on a valid curve. -/

variable {c : Curve K}

/-- The clamped curve that is raised, with all that the run over its breaks needs. -/
structure Prepared (c b : Curve K) : Prop where
  /-- Both ends can be clamped. -/
  ok : c.clampEnds = .ok b
  /-- The counts fit, the knots are in order, the vectors have one size. -/
  sound : b.Sound
  /-- It is the same curve. -/
  keeps : Keeps c b
  /-- With as many control points. -/
  pointCount : b.pointCount = c.pointCount
  /-- Its knots are two full ends around the interior. -/
  clamped : Clamped b.degree b.spline.knots c.domain.1 c.domain.2 (KnotVector.runs c.interior)

theorem Regular.prepared [IsStrictOrderedRing K] (h : c.Regular) : ∃ b, Prepared c b := by
  obtain ⟨b, ok, sound, keeps, -, -, count, values⟩ := h.clampEnds
  rw [← keeps.degree] at values
  refine ⟨b, ok, sound, keeps, count, sound.clamped h.domain_lt values
    (fun x hx => between_of_mem_interior hx) fun x => ?_⟩
  refine le_trans (List.filter_sublist.count_le x) ?_
  rw [keeps.degree, ← KnotVector.count_eq_list_count]
  exact h.count_le x

/-- The raised control vectors, where the nearest knot stands for all within a reach. -/
def raisedVectors (c b : Curve K) (inc : Nat) (reach : Spline.Front K → Nat) : List (Point K) :=
  raiseWithin reach b.degree inc b.vectorSize
    (KnotVector.runs c.interior ++ [⟨c.domain.2, b.degree + 1⟩])
    (startFront b.degree c.domain.1 b.points.vectors)

namespace Prepared

variable {b : Curve K} {inc : Nat}

theorem fits (h : Prepared c b) (inc : Nat) (reach : Spline.Front K → Nat) :
    (raisedKnots b.spline.knots inc).size
        = (raisedVectors c b inc reach).length + (b.degree + inc) + 1
      ∧ AllSized b.vectorSize (raisedVectors c b inc reach) := by
  have shaped := h.clamped.shaped_start (size_padded_knots h.sound) h.sound.sized
  have run : (raisedVectors c b inc reach).length + (b.degree + inc) + 1 = _
      ∧ AllSized b.vectorSize (raisedVectors c b inc reach) :=
    Spline.length_raiseWithin shaped h.clamped.full (by simp)
  rw [h.clamped.knotsFrom_start] at run
  exact ⟨run.1.symm, run.2⟩

/-- What raising the order gives. -/
theorem raiseOrder_eq [Precision K] (h : Prepared c b) (valid : c.isValid = true) {target : Nat}
    (above : c.order < target) (within : target ≤ maxOrder) :
    c.raiseOrder target = .ok (b.raisedWith (target - c.order)
      (raisedVectors c b (target - c.order)
        fun front => b.degree + (target - c.order) - front.added)) := by
  have validated := validate_eq_ok_iff.2 valid
  have head : (b.points.vectors.headD []).length = b.vectorSize := by
    have enough := h.sound.order_le
    have two := h.sound.two_le_order
    cases vectors : b.points.vectors with
    | nil =>
        have none : b.pointCount = 0 := by
          show b.points.vectors.length = 0
          rw [vectors]
          rfl
        omega
    | cons x rest => exact h.sound.sized x (by rw [vectors]; exact List.mem_cons_self)
  unfold raiseOrder
  rw [if_neg (by omega), if_neg (by omega), validated, h.ok]
  show Except.ok (b.withSpline (b.spline.elevate (target - c.order))) = _
  rw [raisedWith, raisedVectors, ← h.clamped.raisedPoints_eq head]
  rfl

/-- **Whatever the reach of the sweeps, the shape is right.** -/
theorem raisedShape (h : Prepared c b) (regular : c.Regular) {target : Nat}
    (above : c.order < target) (reach : Spline.Front K → Nat) :
    RaisedShape c target (b.raisedWith (target - c.order)
      (raisedVectors c b (target - c.order) reach)) := by
  obtain ⟨size, sized⟩ := h.fits (target - c.order) reach
  have two := regular.two_le_order
  have degree : b.degree + (target - c.order) = target - 1 := by
    rw [h.keeps.degree]
    show c.order - 1 + _ = _
    omega
  have sound := h.sound.raisedWith h.clamped size sized
  have values : (b.raisedWith (target - c.order)
      (raisedVectors c b (target - c.order) reach)).knots.values = _ := values_raisedWith h.clamped
  rw [degree] at values
  have order : (b.raisedWith (target - c.order)
      (raisedVectors c b (target - c.order) reach)).order = target := by
    rw [order_raisedWith h.sound, h.keeps.order]
    omega
  refine ⟨sound, order, h.keeps.dimension, ?_, ?_, ?_, values, ?_⟩
  · rw [← h.keeps.rational]
    exact isRational_withSpline _ _
  · exact (sound.domain_of_clamped (clamped_raisedWith h.sound h.clamped)).trans rfl
  · intro side
    have clamped := KnotVector.isClamped_of_values (show 0 < target - 1 by omega) values side
    rw [Nat.sub_add_cancel (by omega)] at clamped
    show KnotVector.isClamped _ (b.raisedWith _ _).order side = true
    rw [order]
    exact clamped
  · rw [regular.spanCount_eq, ← h.pointCount, ← length_of_size_raised h.sound h.clamped size]
    exact pointCount_withSpline _ _

/-- Without a pair that reaches past, every knot stands for itself. -/
theorem raisedVectors_eq (h : Prepared c b) (bound : b.degree + inc ≤ 11) (grows : 0 < inc)
    (clear : ¬(b.degree = 10 ∧ inc = 1
      ∧ ∃ x y, [⟨x, 1⟩, ⟨y, 3⟩] <:+: KnotVector.runs c.interior)) :
    raisedVectors c b inc (fun front => b.degree + inc - front.added)
      = raisedVectors c b inc fun _ => 0 := by
  have previous : (startFront b.degree c.domain.1 b.points.vectors).added
      = b.degree - (⟨c.domain.1, b.degree + 1⟩ : KnotMultiplicity K).multiplicity := by
    show 0 = b.degree - (b.degree + 1)
    omega
  exact Spline.raiseWithin_eq (Spline.plain_startFront _ _ _ _) previous
    ((Spline.isChain_iff bound grows h.clamped.pos).2 clear)

variable [IsStrictOrderedRing K]

/-- **Where every knot stands for itself, the values stay.** -/
theorem definedVector_eq (h : Prepared c b) (regular : c.Regular) {t : K} (h₀ : c.domain.1 ≤ t)
    (h₁ : t ≤ c.domain.2) :
    (b.raisedWith inc (raisedVectors c b inc fun _ => 0)).definedVector t
      = c.definedVector t := by
  obtain ⟨size, sized⟩ := h.fits inc fun _ => 0
  obtain ⟨F, follows⟩ := h.sound.exists_follows rfl rfl
  have positive : 0 < b.degree := by
    have two := h.sound.two_le_order
    show 0 < b.order - 1
    omega
  rw [h.sound.definedVector_raisedWith h.clamped size sized follows
      (h.clamped.actsRightly positive (size_padded_knots h.sound) h.sound.sized follows)
      (by rw [h.keeps.domain]; exact h₀) (by rw [h.keeps.domain]; exact h₁)]
  exact h.keeps.definedVector_eq regular.toSound h.sound regular.domain_lt h₀ h₁

/-- Equal values over the domain come from equal control vectors. -/
theorem raisedVectors_eq_of_definedVector_eq (h : Prepared c b) (regular : c.Regular) {target : Nat}
    (above : c.order < target) (reach reach' : Spline.Front K → Nat)
    (same : ∀ t, c.domain.1 ≤ t → t ≤ c.domain.2 →
      (b.raisedWith (target - c.order) (raisedVectors c b (target - c.order) reach)).definedVector t
        = (b.raisedWith (target - c.order)
            (raisedVectors c b (target - c.order) reach')).definedVector t) :
    raisedVectors c b (target - c.order) reach = raisedVectors c b (target - c.order) reach' := by
  have shape := h.raisedShape regular above reach
  have shape' := h.raisedShape regular above reach'
  have fits := h.fits (target - c.order) reach
  have fits' := h.fits (target - c.order) reach'
  have vectors : ∀ points, (b.raisedWith (target - c.order) points).points.vectors = points :=
    fun points => vectors_withSpline b _
  have ends : Clamped (b.raisedWith (target - c.order)
        (raisedVectors c b (target - c.order) reach')).degree
      (b.raisedWith (target - c.order)
        (raisedVectors c b (target - c.order) reach')).spline.knots _ _ _ :=
    clamped_raisedWith h.sound h.clamped
  refine List.ext_getElem (by omega) fun j hj hj' => ?_
  obtain ⟨i, low, high, before, after, span⟩ := ends.exists_span
    (size_padded_knots shape'.sound) (j := j) (by rw [vectors]; exact hj')
  have entry := shape'.sound.vectors_eq_of_definedVector_eq shape.sound
    (vectorSize_raisedWith.trans vectorSize_raisedWith.symm)
    (shape.order.trans shape'.order.symm) (shape.pointCount.trans shape'.pointCount.symm)
    rfl (fun t h₀ h₁ => same t (shape'.domain ▸ h₀) (shape'.domain ▸ h₁)) low high span before after
  rwa [vectors, vectors, List.getD_eq_getElem _ _ hj, List.getD_eq_getElem _ _ hj'] at entry

end Prepared

/-! ## §3. A straight line on given knots. -/

/-- The locations of a line through the origin, at weight 1. -/
def lineOrigin (c : Curve K) : Fin c.vectorSize → K := fun i =>
  if i.val < c.dimension then 0 else 1

/-- It runs through all dimensions alike. -/
def lineDirection (c : Curve K) : Fin c.vectorSize → K := fun i =>
  if i.val < c.dimension then 1 else 0

/-- A straight line on the knots of a curve. -/
def lineCurve (c : Curve K) (inc : Nat) : Curve K :=
  { c with points := c.points.withVectors ((List.range c.pointCount).map fun j =>
      Point.ofVec (straight c.degree inc c.lineOrigin c.lineDirection 0
        (stretch c.spline.knots.knot (j + 1) c.degree))) }

variable {inc : Nat}

theorem alike_lineCurve (c : Curve K) (inc : Nat) : Alike c (c.lineCurve inc) :=
  ⟨rfl, rfl, ControlPoints.isRational_withVectors _ _, rfl⟩

theorem vectorSize_lineCurve (c : Curve K) (inc : Nat) :
    (c.lineCurve inc).vectorSize = c.vectorSize := by
  have alike := alike_lineCurve c inc
  rw [vectorSize, alike.rational, alike.dimension, vectorSize]

theorem vectors_lineCurve (c : Curve K) (inc : Nat) :
    (c.lineCurve inc).points.vectors = (List.range c.pointCount).map fun j =>
      Point.ofVec (straight c.degree inc c.lineOrigin c.lineDirection 0
        (stretch c.spline.knots.knot (j + 1) c.degree)) :=
  ControlPoints.vectors_withVectors _ _

theorem pointCount_lineCurve (c : Curve K) (inc : Nat) :
    (c.lineCurve inc).pointCount = c.pointCount := by
  show (c.lineCurve inc).points.vectors.length = _
  rw [vectors_lineCurve]
  simp

theorem onLine_lineCurve (c : Curve K) (inc : Nat) :
    ∀ x ∈ (c.lineCurve inc).points.vectors, OnLine c.lineOrigin c.lineDirection x := by
  intro x hx
  rw [vectors_lineCurve] at hx
  obtain ⟨j, -, rfl⟩ := List.mem_map.1 hx
  exact ⟨_, rfl⟩

theorem follows_lineCurve (c : Curve K) (inc : Nat) :
    Follows (c.lineCurve inc).spline.knots (c.lineCurve inc).points.vectors
      (straight c.degree inc c.lineOrigin c.lineDirection) := by
  intro i hp hi t low high j hj hj'
  have inside : j < c.pointCount := by
    have := pointCount_lineCurve c inc
    change (c.lineCurve inc).points.vectors.length = _ at this
    omega
  rw [vectors_lineCurve, List.getD_eq_getElem _ _ (by simpa using inside), List.getElem_map,
      List.getElem_range]
  rfl

/-- Where the points of the line have weights, these are 1. -/
theorem getD_of_onLine (rational : c.isRational = true) {x : Point K}
    (on : OnLine c.lineOrigin c.lineDirection x) :
    x.length = c.dimension + 1 ∧ x.getD c.dimension 0 = 1 := by
  obtain ⟨s, rfl⟩ := on
  have size : c.vectorSize = c.dimension + 1 := by
    rw [vectorSize, rational]
    rfl
  refine ⟨by rw [Point.length_ofVec, size], ?_⟩
  rw [List.getD_eq_getElem _ _ (by rw [Point.length_ofVec]; omega)]
  simp [Point.ofVec, lineOrigin, lineDirection]

/-- On the line the location tells the vector. -/
theorem eq_of_location_of_onLine {x y : Point K} (hx : OnLine c.lineOrigin c.lineDirection x)
    (hy : OnLine c.lineOrigin c.lineDirection y)
    (same : (if c.isRational then Point.dehomogenize x else x)
      = if c.isRational then Point.dehomogenize y else y) : x = y := by
  cases rational : c.isRational with
  | false => simpa [rational] using same
  | true =>
      obtain ⟨fitsx, onex⟩ := getD_of_onLine rational hx
      obtain ⟨fitsy, oney⟩ := getD_of_onLine rational hy
      rw [← Point.weight_eq_getD fitsx] at onex
      rw [← Point.weight_eq_getD fitsy] at oney
      rw [if_pos rational, if_pos rational] at same
      exact Point.eq_of_dehomogenize (onex.trans oney.symm) (onex.trans_ne one_ne_zero) same

theorem lineDirection_ne_zero (positive : 0 < c.dimension) : c.lineDirection ≠ 0 := by
  intro zero
  have inside : 0 < c.vectorSize := by
    unfold vectorSize
    split <;> omega
  have first := congrFun zero ⟨0, inside⟩
  simp [lineDirection, positive] at first

/-- Other control points on the knots of a valid curve make a valid curve. -/
theorem Alike.isValid [Precision K] [Precision.Exact K] {c c' : Curve K} (h : Alike c c')
    (count : c'.pointCount = c.pointCount)
    (sized : ∀ x ∈ c'.points.vectors, x.length = c.vectorSize)
    (weights : ∀ w ∈ c'.points.weights, 0 < w) (valid : c.isValid = true) :
    c'.isValid = true := by
  obtain ⟨limit, counts, -, -, knots⟩ := isValid_iff_exact.1 valid
  have size : c'.vectorSize = c.vectorSize := by
    rw [vectorSize, h.rational, h.dimension, vectorSize]
  refine isValid_iff_exact.2 ⟨size ▸ limit, ?_, size ▸ sized, weights, ?_⟩
  · rw [← counts]
    unfold countDefect? knotCount
    rw [h.dimension, h.order, h.knots, count]
  · rw [← knots]
    unfold knotDefect? degree
    rw [h.order, h.knots, count]

variable [IsStrictOrderedRing K]

/-- Points of the line on the knots of a valid curve make a valid curve. -/
theorem Alike.isValid_of_onLine [Precision K] [Precision.Exact K] {c c' : Curve K}
    (alike : Alike c c') (count : c'.pointCount = c.pointCount)
    (on : ∀ x ∈ c'.points.vectors, OnLine c.lineOrigin c.lineDirection x)
    (valid : c.isValid = true) : c'.isValid = true := by
  refine alike.isValid count (fun x hx => ?_) ?_ valid
  · obtain ⟨s, rfl⟩ := on x hx
    exact Point.length_ofVec _
  · refine ControlPoints.forall_mem_weights.2 fun i hi => ?_
    cases rational : c.isRational with
    | false =>
        rw [ControlPoints.weight_of_not_isRational (alike.rational.trans rational)]
        exact zero_lt_one
    | true =>
        have member : c'.points.vectors.getD i [] ∈ c'.points.vectors := by
          rw [List.getD_eq_getElem _ _ hi]
          exact List.getElem_mem hi
        obtain ⟨size, one⟩ := getD_of_onLine rational (on _ member)
        rw [ControlPoints.weight_of_isRational (alike.rational.trans rational),
            Point.weight_eq_getD size, one]
        exact zero_lt_one

theorem isValid_lineCurve [Precision K] [Precision.Exact K] (valid : c.isValid = true)
    (inc : Nat) : (c.lineCurve inc).isValid = true :=
  (alike_lineCurve c inc).isValid_of_onLine (pointCount_lineCurve c inc)
    (onLine_lineCurve c inc) valid

/-- Where all control vectors lie on the line, the value tells the vector. -/
theorem Sound.definedVector_eq_of_onLine {b e : Curve K} (hb : b.Sound) (he : e.Sound)
    (sizeb : b.vectorSize = c.vectorSize) (sizee : e.vectorSize = c.vectorSize)
    (rationalb : b.isRational = c.isRational) (rationale : e.isRational = c.isRational)
    (onb : ∀ x ∈ b.points.vectors, OnLine c.lineOrigin c.lineDirection x)
    (one : ∀ x ∈ e.points.vectors, OnLine c.lineOrigin c.lineDirection x)
    (domain : e.domain = b.domain) (lt : b.domain.1 < b.domain.2) {t : K} (h₀ : b.domain.1 ≤ t)
    (h₁ : t ≤ b.domain.2) (same : e.definedAt t = b.definedAt t) :
    e.definedVector t = b.definedVector t := by
  cases rational : c.isRational with
  | false =>
      rw [definedAt, definedAt, rationalb, rationale, rational] at same
      exact same
  | true =>
      have weight : ∀ f : Curve K, f.Sound → f.vectorSize = c.vectorSize →
          (∀ x ∈ f.points.vectors, OnLine c.lineOrigin c.lineDirection x) →
          f.domain = b.domain → Point.weight (f.definedVector t) = 1 := by
        intro f sound size on same
        have last : c.vectorSize = c.dimension + 1 := by
          rw [vectorSize, rational]
          rfl
        have length : (f.definedVector t).length = c.dimension + 1 := by
          rw [← last, ← size]
          exact Point.length_combine _ sound.sized
        rw [Point.weight_eq_getD length]
        exact sound.getD_definedVector (same ▸ lt) (by omega)
          (fun x hx => (getD_of_onLine rational (on x hx)).2) (same ▸ h₀) (same ▸ h₁)
      rw [definedAt, definedAt, rationalb, rationale, rational] at same
      have weighte := weight e he sizee one domain
      exact Point.eq_of_dehomogenize (weighte.trans (weight b hb sizeb onb rfl).symm)
        (weighte.trans_ne one_ne_zero) same

/-! ## §4. Which knots are raised rightly. -/

/-- Whatever the reach of the sweeps, the points of the raised line lie on it; a single break
before a triple one makes the two kinds of sweeps differ. -/
theorem Prepared.raisedVectors_of_straight {f b : Curve K} {v : Fin c.vectorSize → K}
    (h : Prepared f b) (order : f.order = c.order) (vectorSize' : f.vectorSize = c.vectorSize)
    (follows : Follows f.spline.knots f.points.vectors (straight c.degree 1 c.lineOrigin v))
    (ten : c.degree = 10) :
    (∀ reach, ∀ x ∈ raisedVectors f b 1 reach, OnLine c.lineOrigin v x)
      ∧ (v ≠ 0 → (∃ x y, [⟨x, 1⟩, ⟨y, 3⟩] <:+: KnotVector.runs f.interior) →
          raisedVectors f b 1 (fun front => b.degree + 1 - front.added)
            ≠ raisedVectors f b 1 fun _ => 0) := by
  have degree : f.degree = c.degree := congrArg (· - 1) order
  have kept : Follows b.spline.knots b.points.vectors (straight c.degree 1 c.lineOrigin v) :=
    h.keeps.follows degree follows
  have degree' : b.degree = c.degree := h.keeps.degree.trans degree
  have sizes : b.vectorSize = c.vectorSize := h.keeps.vectorSize.trans vectorSize'
  have clamped := h.clamped
  have size := size_padded_knots h.sound
  have sized := h.sound.sized
  rw [degree'] at clamped size
  rw [sizes] at sized
  refine ⟨fun reach => ?_, fun moves pair => ?_⟩
  · rw [raisedVectors, degree', sizes]
    exact clamped.onLine_raised (by omega) size sized kept reach
  · rw [raisedVectors, raisedVectors, degree', sizes]
    exact clamped.raised_ne ten rfl pair size sized kept moves

/-- **On knots that overreach, raising bends a straight line**, in whichever direction it runs. -/
theorem not_raisedCurve_of_straight [Precision K] [Precision.Exact K] {f : Curve K}
    {v : Fin c.vectorSize → K} (valid : f.isValid = true) (order : f.order = c.order)
    (rational : f.isRational = c.isRational) (vectorSize' : f.vectorSize = c.vectorSize)
    (follows : Follows f.spline.knots f.points.vectors (straight c.degree 1 c.lineOrigin v))
    (moves : v ≠ 0)
    (along : ∀ {x}, OnLine c.lineOrigin v x → OnLine c.lineOrigin c.lineDirection x)
    (on : ∀ x ∈ f.points.vectors, OnLine c.lineOrigin c.lineDirection x) {target : Nat}
    (bad : f.Overreaches target) :
    ¬∃ e, f.raiseOrder target = .ok e ∧ RaisedCurve f target e := by
  rintro ⟨e, ok, raised⟩
  obtain ⟨eleven, rfl, pair⟩ := id bad
  have regular := regular_of_isValid valid
  obtain ⟨b, prepared⟩ := regular.prepared
  have inc : 12 - f.order = 1 := by rw [eleven]
  have above : f.order < 12 := by omega
  have ten : c.degree = 10 := by
    show c.order - 1 = 10
    omega
  obtain ⟨raisedOn, differ⟩ := prepared.raisedVectors_of_straight order vectorSize' follows ten
  have result := prepared.raiseOrder_eq valid above (le_refl 12)
  have shape := prepared.raisedShape regular above fun front => b.degree + 1 - front.added
  rw [inc] at result shape
  cases result.symm.trans ok
  -- equal values on equal knots would come from equal vectors
  refine differ moves pair ?_
  have determined := prepared.raisedVectors_eq_of_definedVector_eq regular above
    (fun front => b.degree + 1 - front.added) fun _ => 0
  rw [inc] at determined
  refine determined fun t h₀ h₁ => ?_
  rw [prepared.definedVector_eq regular h₀ h₁]
  exact regular.toSound.definedVector_eq_of_onLine shape.sound vectorSize'
    (vectorSize_raisedWith.trans (prepared.keeps.vectorSize.trans vectorSize'))
    rational (shape.rational.trans rational) on
    (by rw [raisedWith, vectors_withSpline]; exact fun x hx => along (raisedOn _ x hx))
    shape.domain regular.domain_lt h₀ h₁ (raised.value t h₀ h₁)

/-- So it bends the line on the knots of a curve. -/
theorem not_raisedCurve_lineCurve [Precision K] [Precision.Exact K]
    (valid : c.isValid = true) {target : Nat} (bad : c.Overreaches target) :
    ¬∃ e, (c.lineCurve 1).raiseOrder target = .ok e
      ∧ RaisedCurve (c.lineCurve 1) target e := by
  have alike := alike_lineCurve c 1
  exact not_raisedCurve_of_straight (isValid_lineCurve valid 1) alike.order alike.rational
    (vectorSize_lineCurve c 1) (follows_lineCurve c 1)
    (lineDirection_ne_zero (regular_of_isValid valid).dimension_pos) id (onLine_lineCurve c 1)
    ((alike.overreaches_iff target).2 bad)

/-- **On all other knots, raising keeps the vectors at all parameters.** -/
theorem raiseOrder_of_not_overreaches [Precision K] [Precision.Exact K]
    (valid : c.isValid = true) {target : Nat} (above : c.order < target)
    (within : target ≤ maxOrder) (clear : ¬c.Overreaches target) :
    ∃ e, c.raiseOrder target = .ok e ∧ RaisedShape c target e
      ∧ ∀ t, c.domain.1 ≤ t → t ≤ c.domain.2 → e.definedVector t = c.definedVector t := by
  have regular := regular_of_isValid valid
  obtain ⟨b, prepared⟩ := regular.prepared
  have two := regular.two_le_order
  have degree : b.degree = c.order - 1 := prepared.keeps.degree
  have twelve : target ≤ 12 := within
  have same : raisedVectors c b (target - c.order) _ = raisedVectors c b (target - c.order) _ :=
    prepared.raisedVectors_eq (by omega) (by omega)
      fun ⟨ten, one, pair⟩ => clear ⟨by omega, by omega, pair⟩
  have ok := prepared.raiseOrder_eq valid above within
  have shape := prepared.raisedShape regular above fun front =>
    b.degree + (target - c.order) - front.added
  rw [same] at ok shape
  exact ⟨_, ok, shape, fun t h₀ h₁ => prepared.definedVector_eq regular h₀ h₁⟩

/-- So the curve stays. -/
theorem raisedCurve_of_not_overreaches [Precision K] [Precision.Exact K]
    (valid : c.isValid = true) {target : Nat} (above : c.order < target)
    (within : target ≤ maxOrder) (clear : ¬c.Overreaches target) :
    ∃ e, c.raiseOrder target = .ok e ∧ RaisedCurve c target e := by
  obtain ⟨e, ok, shape, same⟩ := raiseOrder_of_not_overreaches valid above within clear
  exact ⟨e, ok, shape, fun t h₀ h₁ => definedAt_congr shape.rational (same t h₀ h₁)⟩

/-- **Raising the order preserves the curve, unless its knots overreach.**  It always
succeeds with the right shape; every curve on the same knots keeps its values exactly
when no single interior knot before a triple one is raised from the order 11 to 12. -/
theorem raiseOrder_preserves_curve_iff [Precision K] [Precision.Exact K]
    (valid : c.isValid = true) {target : Nat} (above : c.order < target)
    (within : target ≤ maxOrder) :
    (∃ e, c.raiseOrder target = .ok e ∧ RaisedShape c target e)
      ∧ ((∀ c', Alike c c' → c'.isValid = true →
            ∃ e, c'.raiseOrder target = .ok e ∧ RaisedCurve c' target e)
          ↔ ¬c.Overreaches target) := by
  have regular := regular_of_isValid valid
  refine ⟨?_, fun all bad => ?_, fun clear c' alike valid' => ?_⟩
  · obtain ⟨b, prepared⟩ := regular.prepared
    exact ⟨_, prepared.raiseOrder_eq valid above within, prepared.raisedShape regular above _⟩
  · obtain ⟨order, rfl, -⟩ := id bad
    exact not_raisedCurve_lineCurve valid bad
      (all _ (alike_lineCurve c 1) (isValid_lineCurve valid 1))
  · exact raisedCurve_of_not_overreaches valid' (alike.order ▸ above) within
      fun bad => clear ((alike.overreaches_iff target).1 bad)

/-- A rational curve with an unclamped start is raised by two orders, whatever its points. -/
theorem raiseOrder_preserves_openStart :
    openStart.isValid = true ∧ openStart.order < 5 ∧ 5 ≤ maxOrder
      ∧ (∃ e, openStart.raiseOrder 5 = .ok e ∧ RaisedShape openStart 5 e)
      ∧ ∀ c', Alike openStart c' → c'.isValid = true →
          ∃ e, c'.raiseOrder 5 = .ok e ∧ RaisedCurve c' 5 e := by
  have valid : openStart.isValid = true := by decide +kernel
  obtain ⟨shape, all⟩ := raiseOrder_preserves_curve_iff valid (show openStart.order < 5 by decide)
    (show 5 ≤ maxOrder by decide)
  refine ⟨valid, by decide, by decide, shape, all.2 fun bad => ?_⟩
  exact absurd bad.1 (by decide)

/-- The straight line `11 t` on `[0, 3]`, with a single knot before a triple one. -/
def steadyLine : Curve ℚ where
  dimension := 1
  order := 11
  points := .cartesian [[0], [11 / 10], [33 / 10], [55 / 10], [77 / 10], [11], [143 / 10],
    [176 / 10], [209 / 10], [242 / 10], [275 / 10], [297 / 10], [308 / 10], [319 / 10], [33]]
  knots := ⟨[0, 0, 0, 0, 0, 0, 0, 0, 0, 0, 1, 2, 2, 2, 3, 3, 3, 3, 3, 3, 3, 3, 3, 3]⟩

/-- Raised to the order 12, the line is no longer straight. -/
theorem steadyLine_not_raised :
    steadyLine.isValid = true ∧ steadyLine.order < 12 ∧ 12 ≤ maxOrder
      ∧ ¬∃ e, steadyLine.raiseOrder 12 = .ok e ∧ RaisedCurve steadyLine 12 e := by
  have valid : steadyLine.isValid = true := by decide +kernel
  have line : steadyLine.lineCurve 1 = steadyLine := by decide +kernel
  have bad : steadyLine.Overreaches 12 := ⟨rfl, rfl, 1, 2, by decide +kernel⟩
  refine ⟨valid, by decide, by decide, ?_⟩
  have bent := not_raisedCurve_lineCurve valid bad
  rwa [line] at bent

end Curve

end RationalSpline
