/-
  RationalSpline.Proofs.RaisedParts
  ─────────────────────────────────
  RAISING CURVES WITH FULL ENDS.

  `raisedTo` is what raising the order leaves of a curve with full ends, whether or not
  its knots overreach.  It passes through a change of the parameter, a common factor of
  the vectors and the weight 1, and raises the two parts of a spliced curve each for
  itself.  Raising in two steps is raising in one.
-/
import RationalSpline.Proofs.ClampedEnds
import RationalSpline.Proofs.Joining
import RationalSpline.Proofs.RaisedJoint
import RationalSpline.Proofs.Uniqueness

namespace RationalSpline

open Spline (Clamped startFront)

variable {K : Type} [Field K] [LinearOrder K]

namespace Curve

variable {c e : Curve K} {order : Nat}

omit [Field K] [LinearOrder K] in
/-- Curves that store the same are the same. -/
theorem eq_of_stored (dimension : e.dimension = c.dimension) (order : e.order = c.order)
    (rational : e.isRational = c.isRational) (knots : e.knots.values = c.knots.values)
    (vectors : e.points.vectors = c.points.vectors) : e = c := by
  obtain ⟨_, _, _, ⟨_⟩⟩ := c
  obtain ⟨_, _, _, ⟨_⟩⟩ := e
  have points := ControlPoints.eq_of_vectors_eq rational vectors
  simp only at dimension order knots points
  rw [dimension, order, knots, points]

/-! ## §1. The raised curve. -/

/-- The raised control vectors. -/
def vectorsRaised (c : Curve K) (inc : Nat) : List (Point K) :=
  raisedVectors c c inc fun front => c.degree + inc - front.added

/-- The curve in the order `order`, if its own is not as high. -/
def raisedTo (c : Curve K) (order : Nat) : Curve K :=
  if order ≤ c.order then c
  else c.raisedWith (order - c.order) (c.vectorsRaised (order - c.order))

theorem raisedTo_of_le (h : order ≤ c.order) : c.raisedTo order = c := if_pos h

theorem raisedTo_of_lt (h : c.order < order) : c.raisedTo order
    = c.raisedWith (order - c.order) (c.vectorsRaised (order - c.order)) :=
  if_neg (not_le.2 h)

theorem isRational_raisedTo (c : Curve K) (order : Nat) :
    (c.raisedTo order).isRational = c.isRational := by
  unfold raisedTo
  split
  · rfl
  · exact isRational_withSpline _ _

theorem vectorSize_raisedTo (c : Curve K) (order : Nat) :
    (c.raisedTo order).vectorSize = c.vectorSize := by
  unfold raisedTo
  split
  · rfl
  · exact vectorSize_raisedWith

theorem vectors_raisedTo (above : c.order < order) :
    (c.raisedTo order).points.vectors = c.vectorsRaised (order - c.order) := by
  rw [raisedTo_of_lt above]
  exact ControlPoints.vectors_withVectors _ _

/-- A curve with full ends is its own clamped form. -/
theorem Ended.clampEnds_eq (h : c.Ended) : c.clampEnds = .ok c := by
  have two := h.two_le_order
  have clamped : ∀ side, c.isClamped side = true := fun side => by
    have whole := KnotVector.isClamped_of_values h.degree_pos h.values side
    rwa [show c.degree + 1 = c.order from Nat.sub_add_cancel (by omega)] at whole
  exact h.toSound.clampEnds_of_isClamped (clamped .start) (clamped .finish)

theorem Ended.prepared (h : c.Ended) : Prepared c c :=
  ⟨h.clampEnds_eq, h.toSound, Keeps.refl c, rfl, h.clamped⟩

/-- Clamped knots have full ends. -/
theorem Sound.ended_of_clamped {a b : K} {ms : List (KnotMultiplicity K)} (h : c.Sound)
    (clamped : Clamped c.degree c.spline.knots a b ms) :
    c.Ended ∧ c.domain = (a, b) ∧ KnotVector.runs c.interior = ms := by
  obtain ⟨before, inner⟩ := List.pairwise_cons.1 clamped.sorted
  obtain ⟨sorted, -, after⟩ := List.pairwise_append.1 inner
  have lt : a < b := before ⟨b, c.degree + 1⟩ (by simp)
  have values : c.knots.values = List.replicate c.degree a
      ++ ms.flatMap KnotMultiplicity.occurrences ++ List.replicate c.degree b := by
    have unpadded := KnotVector.values_unpadded clamped.values
    rwa [show c.spline.knots.unpadded = c.knots from KnotVector.unpadded_padded _ _] at unpadded
  have between : ∀ x ∈ ms.flatMap KnotMultiplicity.occurrences, a < x ∧ x < b := by
    intro x hx
    obtain ⟨m, hm, copy⟩ := List.mem_flatMap.1 hx
    rw [List.eq_of_mem_replicate copy]
    exact ⟨before m (by simp [hm]), after m hm _ (List.mem_singleton.2 rfl)⟩
  obtain ⟨ended, domain, interior⟩ := h.ended_of_values lt values between
    (KnotVector.count_flatMap_le (sorted.imp fun lt => lt.ne) clamped.le)
  refine ⟨ended, domain, ?_⟩
  rw [interior]
  exact KnotVector.runs_flatMap (sorted.imp fun lt => lt.ne).isChain clamped.pos

/-- `e` is a curve with full ends in a higher order, which starts and ends where `c` does. -/
structure RaisedEnds (c : Curve K) (order : Nat) (e : Curve K) : Prop extends Ended e where
  /-- The number of coordinates stays. -/
  dimension : e.dimension = c.dimension
  /-- The order is the one asked for. -/
  order_eq : e.order = order
  /-- The meaning of the vectors stays. -/
  rational : e.isRational = c.isRational
  /-- The parameters stay. -/
  domain : e.domain = c.domain
  /-- Every interior knot is repeated once more for each degree gained. -/
  runs : KnotVector.runs e.interior
    = (KnotVector.runs c.interior).map (KnotMultiplicity.raise (order - c.order))
  /-- The first control vector stays. -/
  first : e.points.vectors.head? = c.points.vectors.head?
  /-- So does the last. -/
  last : e.points.vectors.getLast? = c.points.vectors.getLast?

/-- **Raising keeps full ends, whatever it does between them.** -/
theorem Ended.raisedTo (h : c.Ended) (above : c.order ≤ order) :
    RaisedEnds c order (c.raisedTo order) := by
  rcases eq_or_lt_of_le above with rfl | above
  · rw [raisedTo_of_le le_rfl]
    refine ⟨h, rfl, rfl, rfl, rfl, ?_, rfl, rfl⟩
    rw [Nat.sub_self]
    exact (List.map_id _).symm
  have prepared := h.prepared
  obtain ⟨size, sized⟩ := prepared.fits (order - c.order)
    fun front => c.degree + (order - c.order) - front.added
  have sound := h.toSound.raisedWith h.clamped size sized
  obtain ⟨ended, domain, runs⟩ :=
    sound.ended_of_clamped (clamped_raisedWith h.toSound h.clamped)
  have points := size_padded_knots h.toSound
  have shaped := h.clamped.shaped_start points h.sized
  have count := h.pointCount_eq
  have some : 0 < c.points.vectors.length := by
    show 0 < c.pointCount
    omega
  refine ⟨by rw [raisedTo_of_lt above]; exact ended, ?_, ?_, isRational_raisedTo _ _,
    ?_, ?_, ?_, ?_⟩
  · rw [raisedTo_of_lt above]
    rfl
  · rw [raisedTo_of_lt above, order_raisedWith h.toSound]
    omega
  · rw [raisedTo_of_lt above]
    exact domain
  · rw [raisedTo_of_lt above]
    exact runs
  · rw [vectors_raisedTo above]
    -- the run begins with the first point and ends with the last
    refine (Spline.head?_raiseWithin shaped h.clamped.full).trans ?_
    show (c.points.vectors.take 1).getLast? = _
    obtain ⟨x, rest, parts⟩ := List.exists_cons_of_length_pos some
    rw [parts]
    rfl
  · rw [vectors_raisedTo above]
    refine (Spline.getLast?_raiseWithin h.degree_pos (fun _ _ same => congrArg _ same) shaped
      h.clamped.full).trans ?_
    exact congrArg List.getLast? (List.take_append_drop _ _)

/-! ## §2. Changed vectors on moved knots. -/

/-- `e` has the knots of `c`, moved by `f`, and its vectors, changed by `g`. -/
structure Moved (f : K → K) (g : Point K → Point K) (c e : Curve K) : Prop where
  /-- The number of coordinates stays. -/
  dimension : e.dimension = c.dimension
  /-- The order stays. -/
  order : e.order = c.order
  /-- The knots are moved. -/
  knots : e.knots = c.knots.map f
  /-- The vectors are changed. -/
  vectors : e.points.vectors = c.points.vectors.map g
  /-- The change keeps affine combinations. -/
  affine : Point.Affine c.vectorSize e.vectorSize g

namespace Moved

variable [IsStrictOrderedRing K] {f : K → K} {g : Point K → Point K} {σ : K}

/-- Full ends are moved, and so are the knots between them. -/
theorem ended (h : Moved f g c e) (full : c.Ended) (scales : Scales f σ) :
    e.Ended ∧ e.domain = (f c.domain.1, f c.domain.2)
      ∧ KnotVector.runs e.interior
        = (KnotVector.runs c.interior).map (KnotMultiplicity.map f) := by
  obtain ⟨moved, interior⟩ := full.mapKnots scales
  have repointed : Repointed (c.mapKnots f) e := by
    refine ⟨h.dimension, h.order, h.knots, ?_, ?_⟩
    · show e.points.vectors.length = c.points.vectors.length
      rw [h.vectors, List.length_map]
    · intro x hx
      rw [h.vectors] at hx
      obtain ⟨y, hy, rfl⟩ := List.mem_map.1 hx
      exact h.affine.length (full.sized y hy)
  have domain := repointed.domain
  refine ⟨moved.repointed repointed, ?_, ?_⟩
  · rw [domain]
    exact full.toSound.domain_mapKnots f
  · have same : e.interior = (c.mapKnots f).interior := by
      rw [Curve.interior, domain, h.knots]
      rfl
    rw [same, interior]
    exact KnotVector.runs_map scales.injective _

/-- **Raising passes through the change.** -/
theorem raisedTo (h : Moved f g c e) (full : c.Ended) (scales : Scales f σ) (order : Nat) :
    Moved f g (c.raisedTo order) (e.raisedTo order) := by
  rcases le_or_gt order c.order with below | above
  · rwa [raisedTo_of_le below, raisedTo_of_le (h.order.symm ▸ below)]
  obtain ⟨full', domain, runs⟩ := h.ended full scales
  have above' : e.order < order := h.order.symm ▸ above
  have shape := full.raisedTo above.le
  have shape' := full'.raisedTo above'.le
  have degree : e.degree = c.degree := by rw [Curve.degree, h.order, Curve.degree]
  refine ⟨?_, ?_, congrArg KnotVector.mk ?_, ?_, ?_⟩
  · rw [shape'.dimension, h.dimension, shape.dimension]
  · rw [shape'.order_eq, shape.order_eq]
  · have interior : (e.raisedTo order).interior = (c.raisedTo order).interior.map f := by
      rw [← KnotVector.flatMap_runs (e.raisedTo order).interior, shape'.runs, runs, h.order,
          List.map_map, ← KnotVector.flatMap_runs (c.raisedTo order).interior, shape.runs,
          ← Spline.flatMap_occurrences_map, List.map_map]
      rfl
    have degree' : (e.raisedTo order).degree = (c.raisedTo order).degree := by
      rw [Curve.degree, shape'.order_eq, Curve.degree, shape.order_eq]
    rw [shape'.values, shape.values, interior, shape'.domain, shape.domain, domain, degree',
        List.map_append, List.map_append, List.map_replicate, List.map_replicate]
  · have shaped := full.clamped.shaped_start (size_padded_knots full.toSound) full.sized
    have raised := Spline.raiseWithin_map scales h.affine full.degree_pos (order - c.order)
      (fun front => c.degree + (order - c.order) - front.added)
      (fun _ _ same => congrArg _ same) shaped full.clamped.full
    rw [Spline.startFront_map, List.map_append, ← runs, ← h.vectors] at raised
    rw [vectors_raisedTo above', vectors_raisedTo above, vectorsRaised, raisedVectors, h.order,
        degree, domain]
    exact raised
  · rw [vectorSize_raisedTo, vectorSize_raisedTo]
    exact h.affine

omit [IsStrictOrderedRing K] in
/-- What a change leaves open is the meaning of the vectors. -/
theorem eq_of_moved {e' : Curve K} (h : Moved f g c e) (h' : Moved f g c e')
    (rational : e'.isRational = e.isRational) : e' = e :=
  eq_of_stored (h'.dimension.trans h.dimension.symm) (h'.order.trans h.order.symm) rational
    (congrArg KnotVector.values (h'.knots.trans h.knots.symm)) (h'.vectors.trans h.vectors.symm)

end Moved

/-- The weight 1 is a change of the vectors. -/
theorem moved_makeRational (plain : c.isRational = false) :
    Moved id (fun x : Point K => x ++ [1]) c c.makeRational := by
  have size : c.makeRational.vectorSize = c.vectorSize + 1 := by
    rw [vectorSize, isRational_makeRational, vectorSize, plain]
    rfl
  refine ⟨rfl, rfl, congrArg KnotVector.mk (List.map_id _).symm, vectors_makeRational plain, ?_⟩
  rw [size]
  exact Point.affine_concat _

/-- The common factor of an attached tail. -/
def attachFactor (head tail : Curve K) : K :=
  if tail.isRational then head.points.weight (head.pointCount - 1) / tail.points.weight 0 else 1

theorem isRational_attach (head tail : Curve K) :
    (attach head tail).isRational = tail.isRational := isRational_rescaled head tail

section Changes

variable [IsStrictOrderedRing K] {head tail : Curve K}

/-- **Raising passes through the weight 1.** -/
theorem Ended.raisedTo_weighted (h : c.Ended) (weights : Bool) (order : Nat) :
    (weighted c weights).raisedTo order = weighted (c.raisedTo order) weights := by
  cases weights with
  | false => rfl
  | true =>
      show c.makeRational.raisedTo order = (c.raisedTo order).makeRational
      cases rational : c.isRational with
      | true =>
          rw [makeRational_of_isRational rational,
              makeRational_of_isRational ((isRational_raisedTo c order).trans rational)]
      | false =>
          have identity : Scales (id : K → K) 1 := ⟨one_pos, fun x y => (one_mul _).symm⟩
          refine Moved.eq_of_moved
            (moved_makeRational ((isRational_raisedTo c order).trans rational))
            ((moved_makeRational rational).raisedTo h identity order) ?_
          rw [isRational_raisedTo, isRational_makeRational, isRational_makeRational]

/-- Attaching moves the knots and gives the vectors a common factor. -/
theorem Ended.moved_attach (h : tail.Ended) (head : Curve K) :
    Moved (· + (head.domain.2 - tail.domain.1)) (Point.scale · (attachFactor head tail)) tail
      (attach head tail) := by
  have same : Repointed tail (rescaled head tail) := repointed_rescaled h.toSound
  have size : (attach head tail).vectorSize = tail.vectorSize := by
    rw [attach_eq h]
    show (rescaled head tail).vectorSize = _
    rw [vectorSize, isRational_rescaled, same.dimension, vectorSize]
  refine ⟨?_, ?_, ?_, ?_, by rw [size]; exact Point.affine_scale _ _⟩
  · rw [attach_eq h]
    exact same.dimension
  · rw [attach_eq h]
    exact same.order
  · rw [attach_eq h, ← same.knots]
    rfl
  · rw [attach_eq h]
    show (rescaled head tail).points.vectors = _
    unfold rescaled attachFactor
    split
    · exact vectors_scaleVectors _ _
    · simp [Point.scale_one]

omit [IsStrictOrderedRing K] in
/-- The weights that are compared are those of the outermost vectors. -/
theorem attachFactor_eq (rational : tail.isRational = head.isRational) :
    attachFactor head tail = if tail.isRational then
      Point.weight (head.points.vectors.getLast?.getD [])
        / Point.weight (tail.points.vectors.head?.getD []) else 1 := by
  unfold attachFactor
  split
  · next has =>
      rw [ControlPoints.weight_of_isRational (rational.symm.trans has),
          ControlPoints.weight_of_isRational has, List.getLast?_eq_getElem?,
          List.head?_eq_getElem?, List.getD_eq_getElem?_getD, List.getD_eq_getElem?_getD]
      rfl
  · rfl

/-- **Raising passes through attaching.** -/
theorem raisedTo_attach (first : head.Ended) (second : tail.Ended)
    (same : tail.order = head.order) (rational : tail.isRational = head.isRational)
    (above : head.order ≤ order) :
    (attach head tail).raisedTo order = attach (head.raisedTo order) (tail.raisedTo order) := by
  have shape := first.raisedTo above
  have shape' := second.raisedTo (same.symm ▸ above)
  have moved := (second.moved_attach head).raisedTo second (Scales.add _) order
  have attached := shape'.moved_attach (head.raisedTo order)
  have factor : attachFactor (head.raisedTo order) (tail.raisedTo order)
      = attachFactor head tail := by
    rw [attachFactor_eq (shape'.rational.trans (rational.trans shape.rational.symm)),
        attachFactor_eq rational, shape'.rational, shape.last, shape'.first]
  rw [shape.domain, shape'.domain, factor] at attached
  refine Moved.eq_of_moved attached moved ?_
  rw [isRational_raisedTo, isRational_attach, isRational_attach, isRational_raisedTo]

end Changes

/-! ## §3. Two parts. -/

namespace Adjacent

variable {head tail : Curve K}

/-- The breaks of the head, the joint, and the breaks of the tail. -/
theorem runs_splice (h : Adjacent head tail) : KnotVector.runs (splice head tail).interior
    = KnotVector.runs head.interior
      ++ ⟨head.domain.2, head.degree⟩ :: KnotVector.runs tail.interior := by
  obtain ⟨-, -, interior⟩ := h.ended_splice
  obtain ⟨-, sorted⟩ := List.pairwise_cons.1 h.first.clamped.sorted
  obtain ⟨before, -, start⟩ := List.pairwise_append.1 sorted
  obtain ⟨finish, sorted'⟩ := List.pairwise_cons.1 h.second.clamped.sorted
  obtain ⟨after, -, -⟩ := List.pairwise_append.1 sorted'
  have low : ∀ m ∈ KnotVector.runs head.interior, m.knot < head.domain.2 := fun m hm =>
    start m hm ⟨head.domain.2, head.degree + 1⟩ (List.mem_singleton.2 rfl)
  have high : ∀ m ∈ KnotVector.runs tail.interior, head.domain.2 < m.knot := fun m hm => by
    rw [← h.meet]
    exact finish m (List.mem_append_left _ hm)
  -- the interior is made of runs of increasing knots, so these are its breaks
  have values : (splice head tail).interior
      = (KnotVector.runs head.interior ++ ⟨head.domain.2, head.degree⟩
          :: KnotVector.runs tail.interior).flatMap KnotMultiplicity.occurrences := by
    rw [interior, List.flatMap_append, List.flatMap_cons, KnotVector.flatMap_runs,
        KnotVector.flatMap_runs, List.append_assoc]
    rfl
  have whole : (KnotVector.runs head.interior ++ ⟨head.domain.2, head.degree⟩
      :: KnotVector.runs tail.interior).Pairwise fun m m' => m.knot < m'.knot := by
    refine List.pairwise_append.2 ⟨before, List.pairwise_cons.2 ⟨high, after⟩, ?_⟩
    intro m hm m' hm'
    rcases List.mem_cons.1 hm' with rfl | hm'
    · exact low m hm
    · exact (low m hm).trans (high m' hm')
  rw [values]
  refine KnotVector.runs_flatMap (whole.imp fun lt => lt.ne).isChain fun m hm => ?_
  rcases List.mem_append.1 hm with hm | hm
  · exact h.first.clamped.pos m hm
  · rcases List.mem_cons.1 hm with rfl | hm
    · exact h.first.degree_pos
    · exact h.second.clamped.pos m hm

theorem raisedTo (h : Adjacent head tail) (above : head.order ≤ order) :
    Adjacent (head.raisedTo order) (tail.raisedTo order) := by
  have shape := h.first.raisedTo above
  have shape' := h.second.raisedTo (h.order.symm ▸ above)
  refine ⟨shape.toEnded, shape'.toEnded, ?_, ?_, ?_, ?_⟩
  · rw [shape'.dimension, h.dimension, shape.dimension]
  · rw [shape'.order_eq, shape.order_eq]
  · rw [shape'.rational, h.rational, shape.rational]
  · rw [shape'.domain, h.meet, shape.domain]

/-- The vector at the joint is the last of the head and the first of the tail. -/
theorem ends_of_closed (h : Adjacent head tail) (closed : Closed head tail) :
    head.points.vectors.getLast? = some (joint head tail)
      ∧ tail.points.vectors.head? = some (joint head tail) := by
  obtain ⟨atHead, atTail⟩ := closed
  have enough := h.first.clamped.lt_length (size_padded_knots h.first.toSound)
  have enough' := h.second.clamped.lt_length (size_padded_knots h.second.toSound)
  refine ⟨?_, ?_⟩
  · rw [atHead]
    exact Spline.getLast?_eq_some_getD (by omega)
  · rw [List.head?_eq_getElem?, List.getElem?_eq_getElem (by omega), atTail,
        List.getD_eq_getElem _ _ (by omega)]

/-- The raised breaks of the head, the joint, and the raised breaks of the tail. -/
theorem interior_raisedTo (h : Adjacent head tail) (above : head.order ≤ order) :
    ((splice head tail).raisedTo order).interior
      = (head.raisedTo order).interior
        ++ List.replicate (head.raisedTo order).degree head.domain.2
        ++ (tail.raisedTo order).interior := by
  obtain ⟨ended, -, -⟩ := h.ended_splice
  have shape := h.first.raisedTo above
  have shape' := h.second.raisedTo (h.order.symm ▸ above)
  have runs := (ended.raisedTo above).runs
  have runs' := shape'.runs
  have degree : head.degree + (order - head.order) = (head.raisedTo order).degree := by
    have two := h.first.two_le_order
    rw [Curve.degree, Curve.degree, shape.order_eq]
    omega
  rw [h.runs_splice, List.map_append, List.map_cons] at runs
  rw [h.order] at runs'
  rw [← KnotVector.flatMap_runs ((splice head tail).raisedTo order).interior, runs,
      List.flatMap_append, List.flatMap_cons, ← KnotVector.flatMap_runs
        (head.raisedTo order).interior, shape.runs, ← KnotVector.flatMap_runs
        (tail.raisedTo order).interior, runs', ← degree, List.append_assoc]
  rfl

/-- Where the two vectors at the joint agree, raising begins anew at the joint. -/
theorem vectorsRaised_splice (h : Adjacent head tail) (closed : Closed head tail) (inc : Nat) :
    (splice head tail).vectorsRaised inc
      = (head.vectorsRaised inc).dropLast ++ tail.vectorsRaised inc := by
  obtain ⟨last, first⟩ := h.ends_of_closed closed
  obtain ⟨-, domain, -⟩ := h.ended_splice
  have points := size_padded_knots h.first.toSound
  have points' := size_padded_knots h.second.toSound
  have enough := h.first.clamped.lt_length points
  have shaped := h.first.clamped.shaped_start points h.first.sized
  have shaped' := h.second.clamped.shaped_start points' h.second.sized
  have full' := h.second.clamped.full
  have vectors : (splice head tail).points.vectors
      = head.points.vectors ++ tail.points.vectors.tail := by
    rw [vectors_splice, List.append_cons, List.dropLast_append_getLast? _ last]
  have parts : joint head tail :: tail.points.vectors.tail = tail.points.vectors :=
    List.cons_head?_tail first
  have final : ((startFront head.degree head.domain.1 head.points.vectors).segment
      ++ (startFront head.degree head.domain.1 head.points.vectors).pointsAfter).getLast?
      = some (joint head tail) :=
    (congrArg List.getLast? (List.take_append_drop _ _)).trans last
  rw [h.degree, h.vectorSize, h.meet] at shaped'
  rw [h.degree] at full'
  have run := Spline.raiseWithin_joint inc (fun front => head.degree + inc - front.added)
    h.first.degree_pos (fun _ _ same => congrArg _ same) shaped h.first.clamped.full final
    (parts.symm ▸ shaped') full'
  rw [parts, ← Spline.startFront_append enough, ← vectors] at run
  refine Eq.trans ?_ (run.trans ?_)
  · rw [vectorsRaised, raisedVectors, h.runs_splice, domain, vectorSize_splice, List.append_assoc]
    rfl
  · rw [vectorsRaised, vectorsRaised, raisedVectors, raisedVectors, h.degree, h.vectorSize, h.meet]

variable [IsStrictOrderedRing K]

/-- **A spliced curve that closes is raised to its raised parts.** -/
theorem raisedTo_splice (h : Adjacent head tail) (above : head.order ≤ order)
    (closed : head.order < order → Closed head tail) :
    (splice head tail).raisedTo order = splice (head.raisedTo order) (tail.raisedTo order) := by
  rcases eq_or_lt_of_le above with rfl | above
  · rw [raisedTo_of_le (c := head) le_rfl, raisedTo_of_le (c := tail) h.order.ge]
    exact raisedTo_of_le le_rfl
  obtain ⟨last, first⟩ := h.ends_of_closed (closed above)
  obtain ⟨ended, domain, -⟩ := h.ended_splice
  have raised := h.raisedTo above.le
  have shape := h.first.raisedTo above.le
  have shape' := h.second.raisedTo (h.order.symm ▸ above.le)
  have whole := ended.raisedTo above.le
  refine eq_of_stored (whole.dimension.trans shape.dimension.symm)
    (whole.order_eq.trans shape.order_eq.symm) ?_ ?_ ?_
  · rw [isRational_raisedTo]
    exact (ControlPoints.isRational_withVectors _ _).trans
      ((isRational_raisedTo head order).symm.trans (ControlPoints.isRational_withVectors _ _).symm)
  · have same : ((splice head tail).raisedTo order).degree = (head.raisedTo order).degree := by
      rw [Curve.degree, whole.order_eq, Curve.degree, shape.order_eq]
    rw [whole.values, h.interior_raisedTo above.le, same, whole.domain, domain,
        raised.values_splice, shape.domain, shape'.domain]
  · -- the outermost vectors stay, and so does the vector at the joint
    have middle : joint (head.raisedTo order) (tail.raisedTo order) = joint head tail := by
      rw [joint.eq_1 (head.raisedTo order), List.getLastD_eq_getLast?, List.headD_eq_head?_getD,
          shape.last, shape'.first, last, first]
      exact Point.midpoint_self _
    rw [vectors_splice, middle, List.cons_head?_tail (shape'.first.trans first),
        vectors_raisedTo above, vectors_raisedTo (c := splice head tail) above,
        vectors_raisedTo (c := tail) (h.order.symm ▸ above), h.order]
    exact h.vectorsRaised_splice (closed above) _

end Adjacent

/-! ## §4. One step after another. -/

section Twice

variable [IsStrictOrderedRing K]

/-- Where the knots do not overreach, raising keeps the values and the curve regular. -/
theorem Ended.raisedTo_keeps (h : c.Ended) (regular : c.Regular) (above : c.order ≤ order)
    (within : order ≤ maxOrder) (clear : ¬c.Overreaches order) :
    (c.raisedTo order).Regular ∧ ∀ t, c.domain.1 ≤ t → t ≤ c.domain.2 →
      (c.raisedTo order).definedVector t = c.definedVector t := by
  rcases eq_or_lt_of_le above with rfl | above
  · rw [raisedTo_of_le le_rfl]
    exact ⟨regular, fun _ _ _ => rfl⟩
  have two := h.two_le_order
  have degree : c.degree = c.order - 1 := rfl
  have twelve : maxOrder = 12 := rfl
  have shape := h.raisedTo above.le
  have vectors : c.vectorsRaised (order - c.order)
      = raisedVectors c c (order - c.order) fun _ => 0 :=
    h.prepared.raisedVectors_eq (by omega) (by omega)
      fun ⟨ten, one, pair⟩ => clear ⟨by omega, by omega, pair⟩
  have positive : (c.raisedWith (order - c.order)
      (raisedVectors c c (order - c.order) fun _ => 0)).points.Positive :=
    h.prepared.positive regular
  have value : ∀ t, c.domain.1 ≤ t → t ≤ c.domain.2 → (c.raisedWith (order - c.order)
      (raisedVectors c c (order - c.order) fun _ => 0)).definedVector t = c.definedVector t :=
    fun _ => h.prepared.definedVector_eq regular
  rw [← vectors, ← raisedTo_of_lt above] at positive
  rw [← vectors, ← raisedTo_of_lt above] at value
  exact ⟨shape.toEnded.regular (shape.dimension.symm ▸ regular.dimension_pos) positive, value⟩

/-- **Raising in two steps is raising in one.** -/
theorem Ended.raisedTo_raisedTo (h : c.Ended) (regular : c.Regular) {middle : Nat}
    (above : c.order ≤ middle) (above' : middle ≤ order) (within : order ≤ maxOrder) :
    (c.raisedTo middle).raisedTo order = c.raisedTo order := by
  have shape := h.raisedTo above
  rcases eq_or_lt_of_le above with rfl | lt
  · rw [raisedTo_of_le (c := c) le_rfl]
  rcases eq_or_lt_of_le above' with rfl | lt'
  · exact raisedTo_of_le shape.order_eq.ge
  have twelve : maxOrder = 12 := rfl
  have clear : ∀ n, ¬c.Overreaches n := fun n bad => by
    have := bad.1
    omega
  -- after the first step every knot is repeated
  have clear' : ¬(c.raisedTo middle).Overreaches order := by
    rintro ⟨-, -, x, y, pair⟩
    have single : ⟨x, 1⟩ ∈ KnotVector.runs (c.raisedTo middle).interior :=
      pair.subset List.mem_cons_self
    rw [shape.runs] at single
    obtain ⟨m, hm, same⟩ := List.mem_map.1 single
    have pos := h.clamped.pos m hm
    have count : m.multiplicity + (middle - c.order) = 1 :=
      congrArg KnotMultiplicity.multiplicity same
    omega
  obtain ⟨first, value⟩ := h.raisedTo_keeps regular above (by omega) (clear middle)
  obtain ⟨-, value'⟩ := shape.toEnded.raisedTo_keeps first (shape.order_eq.symm ▸ above') within
    clear'
  obtain ⟨whole, value''⟩ := h.raisedTo_keeps regular (above.trans above') within (clear order)
  have long := h.raisedTo (above.trans above')
  have short := shape.toEnded.raisedTo (shape.order_eq.symm ▸ above')
  have domain : ((c.raisedTo middle).raisedTo order).domain = (c.raisedTo order).domain :=
    (short.domain.trans shape.domain).trans long.domain.symm
  have interior : ((c.raisedTo middle).raisedTo order).interior = (c.raisedTo order).interior := by
    have copies : KnotMultiplicity.raise (order - middle)
          ∘ KnotMultiplicity.raise (middle - c.order)
        = (KnotMultiplicity.raise (order - c.order) : KnotMultiplicity K → KnotMultiplicity K) := by
      funext m
      refine congrArg (KnotMultiplicity.mk m.knot) ?_
      show m.multiplicity + (middle - c.order) + (order - middle)
        = m.multiplicity + (order - c.order)
      omega
    rw [← KnotVector.flatMap_runs ((c.raisedTo middle).raisedTo order).interior, short.runs,
        shape.runs, shape.order_eq, List.map_map, copies, ← long.runs, KnotVector.flatMap_runs]
  refine whole.eq_of_definedVector short.toSound ?_ ?_ ?_ ?_ fun t h₀ h₁ => ?_
  · rw [short.dimension, shape.dimension, long.dimension]
  · rw [short.order_eq, long.order_eq]
  · rw [short.rational, shape.rational, long.rational]
  · refine congrArg KnotVector.mk ?_
    rw [short.values, long.values, domain, interior, Curve.degree, short.order_eq, Curve.degree,
        long.order_eq]
  · rw [long.domain] at h₀ h₁
    rw [value' t (shape.domain.symm ▸ h₀) (shape.domain.symm ▸ h₁), value t h₀ h₁,
        value'' t h₀ h₁]

end Twice

end Curve

end RationalSpline
