/-
  RationalSpline.Proofs.Joining
  ─────────────────────────────
  JOINING TWO CURVES.

  Both curves are brought to one order, to weights if either has them, and to full ends;
  the tail is rescaled to the weight of the head at the joint and moved to its end.
  Except for raising the order on knots that overreach, none of this changes a location,
  so the spliced curve is the head and then the tail.
-/
import RationalSpline.Proofs.Placement
import RationalSpline.Proofs.RaisedHull
import RationalSpline.Proofs.Splicing

namespace RationalSpline

variable {K : Type} [Field K] [LinearOrder K]

namespace Curve

variable {c e : Curve K}

/-! ## §1. Attaching. -/

section Attach

variable {head tail : Curve K}

/-- The tail with its weights brought to those of the head. -/
def rescaled (head tail : Curve K) : Curve K :=
  if tail.isRational then
    tail.scaleVectors (head.points.weight (head.pointCount - 1) / tail.points.weight 0)
  else tail

theorem isRational_rescaled (head tail : Curve K) :
    (rescaled head tail).isRational = tail.isRational := by
  unfold rescaled
  split
  · exact ControlPoints.isRational_withVectors _ _
  · rfl

variable [IsStrictOrderedRing K]

/-- A change of the parameter moves the ends and the knots between them. -/
theorem Ended.mapKnots (h : c.Ended) {f : K → K} {σ : K} (scales : Scales f σ) :
    (c.mapKnots f).Ended ∧ (c.mapKnots f).interior = c.interior.map f := by
  have sound : (c.mapKnots f).Sound := h.toSound.mapKnots fun a _ b _ le => scales.le_iff.2 le
  have values : (c.mapKnots f).knots.values
      = List.replicate c.degree (f c.domain.1) ++ c.interior.map f
        ++ List.replicate c.degree (f c.domain.2) := by
    show c.knots.values.map f = _
    rw [h.values, List.map_append, List.map_append, List.map_replicate, List.map_replicate]
  have between : ∀ x ∈ c.interior.map f, f c.domain.1 < x ∧ x < f c.domain.2 := by
    intro x hx
    obtain ⟨y, hy, rfl⟩ := List.mem_map.1 hx
    exact (between_of_mem_interior hy).imp scales.lt_iff.2 scales.lt_iff.2
  have count : ∀ u, (c.interior.map f).count u ≤ c.degree := by
    intro u
    by_cases member : u ∈ c.interior.map f
    · obtain ⟨v, -, rfl⟩ := List.mem_map.1 member
      rw [List.count_map_of_injective _ f scales.injective]
      exact h.count v
    · rw [List.count_eq_zero_of_not_mem member]
      exact Nat.zero_le _
  obtain ⟨ended, -, interior⟩ :=
    sound.ended_of_values (scales.lt_iff.2 h.lt) values between count
  exact ⟨ended, interior⟩

theorem repointed_rescaled (h : tail.Sound) : Repointed tail (rescaled head tail) := by
  unfold rescaled
  split
  · exact (repointed_scaleVectors h.sized _).1
  · exact .refl h.sized

/-- Attaching rescales the tail and moves it to the end of the head. -/
theorem attach_eq (h : tail.Ended) : attach head tail
    = (rescaled head tail).mapKnots (· + (head.domain.2 - tail.domain.1)) := by
  have domain : (rescaled head tail).domain = tail.domain :=
    (repointed_rescaled h.toSound).domain
  have affine : affineMap (tail.domain.1, tail.domain.2)
      (head.domain.2, head.domain.2 + tail.domain.2 - tail.domain.1)
        = fun k => k + (head.domain.2 - tail.domain.1) := by
    funext k
    have length : tail.domain.2 - tail.domain.1 ≠ 0 := (sub_pos.2 h.lt).ne'
    have ratio : (head.domain.2 + tail.domain.2 - tail.domain.1 - head.domain.2)
        / (tail.domain.2 - tail.domain.1) = 1 := by
      rw [div_eq_one_iff_eq length]
      ring
    simp only [affineMap, ratio]
    ring
  have moved : (rescaled head tail).knots.remap tail.domain
      (head.domain.2, head.domain.2 + tail.domain.2 - tail.domain.1)
        = (rescaled head tail).knots.map (· + (head.domain.2 - tail.domain.1)) := by
    rw [remap_eq_map _ h.lt, affine]
  show Curve.mk _ _ _ ((rescaled head tail).knots.remap (rescaled head tail).domain
    (head.domain.2, head.domain.2 + (rescaled head tail).domain.2
      - (rescaled head tail).domain.1)) = _
  rw [domain, moved]
  rfl

/-- **The attached tail starts where the head ends.** -/
theorem adjacent_attach (first : head.Ended) (second : tail.Ended)
    (dimension : tail.dimension = head.dimension) (order : tail.order = head.order)
    (rational : tail.isRational = head.isRational) :
    Adjacent head (attach head tail) ∧ (attach head tail).domain
      = (head.domain.2, head.domain.2 + (tail.domain.2 - tail.domain.1)) := by
  have same : Repointed tail (rescaled head tail) := repointed_rescaled second.toSound
  have ended := second.repointed same
  have domain : (attach head tail).domain
      = (head.domain.2, head.domain.2 + (tail.domain.2 - tail.domain.1)) := by
    rw [attach_eq second, ended.toSound.domain_mapKnots, same.domain]
    exact Prod.ext (add_sub_cancel _ _) (by ring)
  refine ⟨⟨first, ?_, ?_, ?_, ?_, by rw [domain]⟩, domain⟩
  · rw [attach_eq second]
    exact (ended.mapKnots (Scales.add _)).1
  · rw [attach_eq second]
    exact same.dimension.trans dimension
  · rw [attach_eq second]
    exact same.order.trans order
  · rw [attach_eq second]
    exact (isRational_rescaled head tail).trans rational

/-- Its weights are positive, and at the joint that of the head. -/
theorem weights_attach (first : head.Ended) (second : tail.Ended)
    (rational : tail.isRational = head.isRational) (positive : head.points.Positive)
    (positive' : tail.points.Positive) :
    Adjacent.Balanced head (attach head tail) ∧ (attach head tail).points.Positive := by
  rw [attach_eq second]
  show Adjacent.Balanced head _ ∧ (rescaled head tail).points.Positive
  have count := first.pointCount_eq
  have count' := second.pointCount_eq
  have nonempty : head.pointCount - 1 < head.points.length := by
    show _ < head.pointCount
    omega
  have nonempty' : 0 < tail.points.length := by
    show 0 < tail.pointCount
    omega
  have last := positive.weight_pos nonempty
  have start := positive'.weight_pos nonempty'
  cases has : tail.isRational with
  | false =>
      rw [has] at rational
      have same : rescaled head tail = tail := if_neg (by rw [has]; exact Bool.false_ne_true)
      rw [same]
      exact ⟨fun e => absurd (rational.trans e) Bool.false_ne_true, positive'⟩
  | true =>
      have same : rescaled head tail = tail.scaleVectors
          (head.points.weight (head.pointCount - 1) / tail.points.weight 0) := if_pos has
      rw [same]
      refine ⟨fun e => ?_, (repointed_scaleVectors second.sized _).2 positive'
        (div_pos last start)⟩
      have weight' : tail.points.weight 0 = Point.weight (tail.points.vectors.getD 0 []) :=
        ControlPoints.weight_of_isRational has _
      show _ = Point.weight ((tail.scaleVectors _).points.vectors.getD 0 [])
      rw [getD_scaleVectors _ nonempty', Point.weight_scale, ← weight', mul_div_cancel₀ _ start.ne']
      exact (ControlPoints.weight_of_isRational e _).symm

/-- **The attached tail has at the moved parameter the location of the tail.** -/
theorem definedAt_attach (first : head.Ended) (second : tail.Ended)
    (positive : head.points.Positive) (positive' : tail.points.Positive) (t : K) :
    (attach head tail).definedAt (t + (head.domain.2 - tail.domain.1)) = tail.definedAt t := by
  have sound : (rescaled head tail).Sound :=
    (repointed_rescaled second.toSound).sound second.toSound
  have moved : (attach head tail).definedAt (t + (head.domain.2 - tail.domain.1))
      = (rescaled head tail).definedAt t := by
    rw [attach_eq second]
    exact definedAt_congr rfl (sound.definedVector_mapKnots (Scales.add _) t)
  rw [moved]
  unfold rescaled
  split
  · next rational =>
      have count := first.pointCount_eq
      have count' := second.pointCount_eq
      have last : 0 < head.points.weight (head.pointCount - 1) := positive.weight_pos (by
        show _ < head.pointCount
        omega)
      have start : 0 < tail.points.weight 0 := positive'.weight_pos (by
        show 0 < tail.pointCount
        omega)
      exact second.toSound.definedAt_scaleVectors (div_pos last start).ne' rational t
  · rfl

end Attach

/-! ## §2. The parts. -/

/-- `r` is `c` in the order `order`, which may be its own. -/
structure Lifted (c : Curve K) (order : Nat) (r : Curve K) : Prop extends Sound r where
  /-- The number of coordinates stays. -/
  dimension : r.dimension = c.dimension
  /-- The order is the one asked for. -/
  order_eq : r.order = order
  /-- The meaning of the vectors stays. -/
  rational : r.isRational = c.isRational
  /-- The parameters stay. -/
  domain : r.domain = c.domain
  /-- No knot is over-full. -/
  count_le : ∀ u, r.knots.count u ≤ r.degree
  /-- Weights stay positive, except on knots that overreach. -/
  positive : ¬c.Overreaches order → r.points.Positive
  /-- So do the locations. -/
  value : ¬c.Overreaches order → ∀ t, c.domain.1 ≤ t → t ≤ c.domain.2 →
    r.definedAt t = c.definedAt t

/-- `p` is `r` with weights, if they are asked for, and with full ends. -/
structure Part (r : Curve K) (weights : Bool) (p : Curve K) : Prop extends Ended p where
  /-- The number of coordinates stays. -/
  dimension : p.dimension = r.dimension
  /-- The order stays. -/
  order : p.order = r.order
  /-- There are weights if there were, or if they are asked for. -/
  rational : p.isRational = (r.isRational || weights)
  /-- The parameters stay. -/
  domain : p.domain = r.domain
  /-- Weights stay positive. -/
  positive : r.points.Positive → p.points.Positive
  /-- The locations stay. -/
  value : ∀ t, r.domain.1 ≤ t → t ≤ r.domain.2 → p.definedAt t = r.definedAt t

/-- The curve with weights if they are asked for. -/
def weighted (c : Curve K) (weights : Bool) : Curve K := if weights then c.makeRational else c

theorem matchRational_eq (head tail : Curve K) : matchRational head tail
    = (weighted head (head.isRational || tail.isRational),
       weighted tail (head.isRational || tail.isRational)) := by
  unfold matchRational weighted
  split <;> rfl

theorem isRational_weighted (c : Curve K) (weights : Bool) :
    (weighted c weights).isRational = (c.isRational || weights) := by
  unfold weighted
  cases weights <;> simp

theorem Sound.repointed_weighted (h : c.Sound) (weights : Bool) :
    Repointed c (weighted c weights) := by
  unfold weighted
  split
  · exact repointed_makeRational h.sized
  · exact .refl h.sized

section Ready

variable [IsStrictOrderedRing K]

theorem positive_weighted (positive : c.points.Positive) (weights : Bool) :
    (weighted c weights).points.Positive := by
  unfold weighted
  split
  · exact positive.toRational
  · exact positive

theorem Sound.definedAt_weighted (h : c.Sound) (lt : c.domain.1 < c.domain.2) (weights : Bool)
    {t : K} (h₀ : c.domain.1 ≤ t) (h₁ : t ≤ c.domain.2) :
    (weighted c weights).definedAt t = c.definedAt t := by
  unfold weighted
  split
  · exact h.definedAt_makeRational lt h₀ h₁
  · rfl

/-- **A valid curve can be brought to any higher order within the limit.** -/
theorem exists_lifted [Precision K] [Precision.Exact K] (valid : c.isValid = true) {order : Nat}
    (above : c.order ≤ order) (within : order ≤ maxOrder) :
    ∃ r, c.raiseOrder order = .ok r ∧ Lifted c order r := by
  have regular := regular_of_isValid valid
  rcases eq_or_lt_of_le above with rfl | above
  · refine ⟨c, ?_, regular.toSound, rfl, rfl, rfl, rfl, regular.count_le,
      fun _ => regular.positive, fun _ _ _ _ => rfl⟩
    unfold Curve.raiseOrder
    rw [if_neg (by omega), if_pos rfl]
  · obtain ⟨b, prepared⟩ := regular.prepared
    have ok := prepared.raiseOrder_eq valid above within
    have shape := prepared.raisedShape regular above fun front =>
      b.degree + (order - c.order) - front.added
    refine ⟨_, ok, shape.sound, shape.dimension, shape.order, shape.rational, shape.domain,
      (shape.ended regular above).count_le,
      fun clear => (regular.raiseOrder clear ok).positive, fun clear t h₀ h₁ => ?_⟩
    obtain ⟨e, ok', raised⟩ := raisedCurve_of_not_overreaches valid above within clear
    cases ok.symm.trans ok'
    exact raised.value t h₀ h₁

/-- **A curve without over-full knots can be brought to full ends.** -/
theorem Sound.exists_part (h : c.Sound) (lt : c.domain.1 < c.domain.2)
    (count : ∀ u, c.knots.count u ≤ c.degree) (weights : Bool) :
    ∃ p, (weighted c weights).clampEnds = .ok p ∧ Part c weights p := by
  have repointed := h.repointed_weighted weights
  have sound := repointed.sound h
  have lt' : (weighted c weights).domain.1 < (weighted c weights).domain.2 :=
    repointed.domain.symm ▸ lt
  have count' : ∀ u, (weighted c weights).knots.count u ≤ (weighted c weights).degree := by
    intro u
    rw [repointed.knots, Curve.degree, repointed.order]
    exact count u
  obtain ⟨p, clamped, full, keeps⟩ := sound.ended_clampEnds lt' count'
  refine ⟨p, clamped, full, keeps.dimension.trans repointed.dimension,
    keeps.order.trans repointed.order, keeps.rational.trans (isRational_weighted c weights),
    keeps.domain.trans repointed.domain,
    fun positive => keeps.positive sound (positive_weighted positive weights), fun t h₀ h₁ => ?_⟩
  rw [keeps.definedAt_eq sound full.toSound lt' (repointed.domain.symm ▸ h₀)
    (repointed.domain.symm ▸ h₁)]
  exact h.definedAt_weighted lt weights h₀ h₁

end Ready

/-! ## §3. Appending. -/

/-- The shape of two curves joined. -/
structure JoinedShape (head tail e : Curve K) : Prop where
  /-- The counts fit, the knots are in order, the vectors have one size. -/
  sound : e.Sound
  /-- The number of coordinates is common. -/
  dimension : e.dimension = head.dimension
  /-- The higher order. -/
  order : e.order = max head.order tail.order
  /-- There are weights if either curve has them. -/
  rational : e.isRational = (head.isRational || tail.isRational)
  /-- The parameters of the head, then those of the moved tail. -/
  domain : e.domain = (head.domain.1, head.domain.2 + (tail.domain.2 - tail.domain.1))
  /-- The joint is a full knot. -/
  joint : e.knots.count head.domain.2 = e.order - 1

/-- One curve made of two. -/
structure JoinedCurve (head tail e : Curve K) : Prop extends JoinedShape head tail e where
  /-- At the joint it is halfway between the two ends. -/
  middle : e.definedAt head.domain.2
    = Point.midpoint (head.definedAt head.domain.2) (tail.definedAt tail.domain.1)
  /-- If the ends meet, it first is the head. -/
  before : head.definedAt head.domain.2 = tail.definedAt tail.domain.1 →
    ∀ t, head.domain.1 ≤ t → t ≤ head.domain.2 → e.definedAt t = head.definedAt t
  /-- If the ends meet, it then is the tail. -/
  after : head.definedAt head.domain.2 = tail.definedAt tail.domain.1 →
    ∀ t, head.domain.2 ≤ t → t ≤ head.domain.2 + (tail.domain.2 - tail.domain.1) →
      e.definedAt t = tail.definedAt (tail.domain.1 + t - head.domain.2)

/-- The two curves, and what is spliced. -/
structure Joint (head tail r s p q : Curve K) : Prop where
  /-- The head in the common order. -/
  liftHead : Lifted head (max head.order tail.order) r
  /-- The tail in the common order. -/
  liftTail : Lifted tail (max head.order tail.order) s
  /-- The head, ready. -/
  first : Part r (r.isRational || s.isRational) p
  /-- The tail, ready. -/
  second : Part s (r.isRational || s.isRational) q
  /-- The number of coordinates is common. -/
  dimension : head.dimension = tail.dimension

/-- The two control vectors at the joint agree. -/
def Closed (head tail : Curve K) : Prop :=
  joint head tail = head.points.vectors.getD (head.pointCount - 1) []
    ∧ joint head tail = tail.points.vectors.getD 0 []

namespace Joint

variable {head tail r s p q : Curve K}

theorem rational (h : Joint head tail r s p q) :
    p.isRational = (head.isRational || tail.isRational) ∧ q.isRational = p.isRational := by
  rw [h.first.rational, h.second.rational, h.liftHead.rational, h.liftTail.rational]
  cases head.isRational <;> cases tail.isRational <;> exact ⟨rfl, rfl⟩

theorem domain_first (h : Joint head tail r s p q) : p.domain = head.domain :=
  h.first.domain.trans h.liftHead.domain

theorem domain_second (h : Joint head tail r s p q) : q.domain = tail.domain :=
  h.second.domain.trans h.liftTail.domain

theorem value_first (h : Joint head tail r s p q)
    (clear : ¬head.Overreaches (max head.order tail.order)) {t : K} (h₀ : head.domain.1 ≤ t)
    (h₁ : t ≤ head.domain.2) : p.definedAt t = head.definedAt t := by
  rw [h.first.value t (h.liftHead.domain.symm ▸ h₀) (h.liftHead.domain.symm ▸ h₁),
      h.liftHead.value clear t h₀ h₁]

theorem value_second (h : Joint head tail r s p q)
    (clear : ¬tail.Overreaches (max head.order tail.order)) {t : K} (h₀ : tail.domain.1 ≤ t)
    (h₁ : t ≤ tail.domain.2) : q.definedAt t = tail.definedAt t := by
  rw [h.second.value t (h.liftTail.domain.symm ▸ h₀) (h.liftTail.domain.symm ▸ h₁),
      h.liftTail.value clear t h₀ h₁]

variable [IsStrictOrderedRing K]

theorem adjacent (h : Joint head tail r s p q) : Adjacent p (attach p q)
    ∧ (attach p q).domain
      = (head.domain.2, head.domain.2 + (tail.domain.2 - tail.domain.1)) := by
  have dimension : q.dimension = p.dimension := by
    rw [h.second.dimension, h.first.dimension, h.liftHead.dimension, h.liftTail.dimension,
        h.dimension]
  have order : q.order = p.order := by
    rw [h.second.order, h.first.order, h.liftHead.order_eq, h.liftTail.order_eq]
  have adjacent := adjacent_attach h.first.toEnded h.second.toEnded dimension order h.rational.2
  rwa [h.domain_first, h.domain_second] at adjacent

/-- The spliced curve has the joined shape. -/
theorem shape (h : Joint head tail r s p q) : JoinedShape head tail (splice p (attach p q)) := by
  obtain ⟨adjacent, moved⟩ := h.adjacent
  obtain ⟨ended, domain, -⟩ := adjacent.ended_splice
  have same : (splice p (attach p q)).isRational = p.isRational :=
    ControlPoints.isRational_withVectors _ _
  refine ⟨ended.toSound, h.first.dimension.trans h.liftHead.dimension,
    h.first.order.trans h.liftHead.order_eq, same.trans h.rational.1, ?_, ?_⟩
  · rw [domain, moved, h.domain_first]
  · have copies := adjacent.count_joint
    rw [h.domain_first] at copies
    exact copies

/-- The attached tail has the locations of the tail. -/
theorem value_attach (h : Joint head tail r s p q)
    (clear : ¬head.Overreaches (max head.order tail.order))
    (clear' : ¬tail.Overreaches (max head.order tail.order)) {t : K} (h₀ : tail.domain.1 ≤ t)
    (h₁ : t ≤ tail.domain.2) :
    (attach p q).definedAt (t + (head.domain.2 - tail.domain.1)) = tail.definedAt t := by
  rw [← h.value_second clear' h₀ h₁, ← definedAt_attach h.first.toEnded h.second.toEnded
    (h.first.positive (h.liftHead.positive clear)) (h.second.positive (h.liftTail.positive clear')),
    h.domain_first, h.domain_second]

/-- The parts meet where the curves do. -/
theorem value_ends (h : Joint head tail r s p q)
    (clear : ¬head.Overreaches (max head.order tail.order))
    (clear' : ¬tail.Overreaches (max head.order tail.order)) :
    p.definedAt p.domain.2 = head.definedAt head.domain.2
      ∧ (attach p q).definedAt (attach p q).domain.1 = tail.definedAt tail.domain.1 := by
  have lt : head.domain.1 ≤ head.domain.2 := h.domain_first ▸ h.first.lt.le
  have lt' : tail.domain.1 ≤ tail.domain.2 := h.domain_second ▸ h.second.lt.le
  refine ⟨by rw [h.domain_first, h.value_first clear lt (le_refl _)], ?_⟩
  rw [← h.value_attach clear clear' (le_refl _) lt', h.adjacent.2, add_sub_cancel]

/-- Curves that meet are closed up at the joint. -/
theorem closed (h : Joint head tail r s p q)
    (clear : ¬head.Overreaches (max head.order tail.order))
    (clear' : ¬tail.Overreaches (max head.order tail.order))
    (meet : head.definedAt head.domain.2 = tail.definedAt tail.domain.1) :
    Closed p (attach p q) := by
  have positive := h.first.positive (h.liftHead.positive clear)
  obtain ⟨balanced, -⟩ := weights_attach h.first.toEnded h.second.toEnded h.rational.2 positive
    (h.second.positive (h.liftTail.positive clear'))
  obtain ⟨finish, start⟩ := h.value_ends clear clear'
  exact h.adjacent.1.joint_eq_of_closed balanced positive (by rw [start, finish]; exact meet)

/-- **Where neither curve overreaches, the spliced curve is regular and made of both.** -/
theorem joined (h : Joint head tail r s p q) (positive : 1 ≤ head.dimension)
    (clear : ¬head.Overreaches (max head.order tail.order))
    (clear' : ¬tail.Overreaches (max head.order tail.order)) :
    (splice p (attach p q)).Regular ∧ JoinedCurve head tail (splice p (attach p q)) := by
  obtain ⟨adjacent, moved⟩ := h.adjacent
  have posFirst := h.first.positive (h.liftHead.positive clear)
  obtain ⟨balanced, attached⟩ := weights_attach h.first.toEnded h.second.toEnded h.rational.2
    posFirst (h.second.positive (h.liftTail.positive clear'))
  obtain ⟨finish, start⟩ := h.value_ends clear clear'
  have same : (splice p (attach p q)).isRational = p.isRational :=
    ControlPoints.isRational_withVectors _ _
  refine ⟨adjacent.ended_splice.1.regular ?_ (adjacent.positive_splice posFirst attached),
    h.shape, ?_, fun meet t h₀ h₁ => ?_, fun meet t h₀ h₁ => ?_⟩
  · exact (h.first.dimension.trans h.liftHead.dimension).symm ▸ positive
  · have middle := adjacent.definedAt_joint balanced
    rwa [start, finish, h.domain_first] at middle
  · rw [← h.value_first clear h₀ h₁]
    rw [← h.domain_first] at h₀ h₁
    exact definedAt_congr same
      (adjacent.definedVector_head (h.closed clear clear' meet).1 h₀ h₁)
  · have back : tail.domain.1 + t - head.domain.2 + (head.domain.2 - tail.domain.1) = t := by ring
    rw [← h.value_attach clear clear' (by linarith) (by linarith), back]
    refine definedAt_congr (same.trans adjacent.rational.symm)
      (adjacent.definedVector_tail (h.closed clear clear' meet).2 ?_ ?_)
    · rwa [moved]
    · rwa [moved]

end Joint

variable {head tail : Curve K}

/-- Only valid curves of one dimension are joined, of orders that can be raised. -/
theorem append_eq_ok [Precision K] {e : Curve K} (ok : head.append tail = .ok e) :
    head.isValid = true ∧ tail.isValid = true ∧ head.dimension = tail.dimension
      ∧ head.order ≤ maxOrder ∧ tail.order ≤ maxOrder := by
  have within : ∀ {c r : Curve K} {order : Nat}, c.raiseOrder order = .ok r →
      order ≤ maxOrder := by
    intro c r order raised
    unfold Curve.raiseOrder at raised
    split_ifs at raised with outside
    · omega
    · omega
  unfold append at ok
  split_ifs at ok with differ
  obtain ⟨⟨⟩, validHead, ok⟩ := bind_eq_ok ok
  obtain ⟨⟨⟩, validTail, ok⟩ := bind_eq_ok ok
  obtain ⟨r, raised, -⟩ := bind_eq_ok ok
  have bound := max_le_iff.1 (within raised)
  exact ⟨validate_eq_ok_iff.1 validHead, validate_eq_ok_iff.1 validTail, not_not.1 differ, bound⟩

variable [IsStrictOrderedRing K] [Precision K] [Precision.Exact K]

omit [IsStrictOrderedRing K] [Precision.Exact K] in
/-- What is spliced, if both curves can be made ready. -/
theorem append_of_parts {r s p q : Curve K} (validHead : head.isValid = true)
    (validTail : tail.isValid = true) (dimension : head.dimension = tail.dimension)
    (raised : head.raiseOrder (max head.order tail.order) = .ok r)
    (raised' : tail.raiseOrder (max head.order tail.order) = .ok s)
    (clamped : (weighted r (r.isRational || s.isRational)).clampEnds = .ok p)
    (clamped' : (weighted s (r.isRational || s.isRational)).clampEnds = .ok q) :
    head.append tail = .ok (splice p (attach p q)) := by
  unfold append
  rw [if_neg (not_not.2 dimension), validate_eq_ok_iff.2 validHead, validate_eq_ok_iff.2 validTail]
  show (head.raiseOrder (max head.order tail.order) >>= fun r => _) = _
  rw [raised]
  show (tail.raiseOrder (max head.order tail.order) >>= fun s => _) = _
  rw [raised']
  show ((matchRational r s).1.clampEnds >>= fun p =>
    (matchRational r s).2.clampEnds >>= fun q => Except.ok (splice p (attach p q))) = _
  rw [matchRational_eq]
  dsimp only
  rw [clamped, clamped']
  rfl

/-- Valid curves can be made ready. -/
theorem append_eq (validHead : head.isValid = true) (validTail : tail.isValid = true)
    (dimension : head.dimension = tail.dimension) (withinHead : head.order ≤ maxOrder)
    (withinTail : tail.order ≤ maxOrder) :
    ∃ r s p q, head.raiseOrder (max head.order tail.order) = .ok r ∧ Joint head tail r s p q
      ∧ head.append tail = .ok (splice p (attach p q)) := by
  obtain ⟨r, raised, lifted⟩ := exists_lifted validHead (le_max_left head.order tail.order)
    (max_le withinHead withinTail)
  obtain ⟨s, raised', lifted'⟩ := exists_lifted validTail (le_max_right head.order tail.order)
    (max_le withinHead withinTail)
  obtain ⟨p, clamped, part⟩ := lifted.toSound.exists_part
    (lifted.domain.symm ▸ (regular_of_isValid validHead).domain_lt) lifted.count_le
    (r.isRational || s.isRational)
  obtain ⟨q, clamped', part'⟩ := lifted'.toSound.exists_part
    (lifted'.domain.symm ▸ (regular_of_isValid validTail).domain_lt) lifted'.count_le
    (r.isRational || s.isRational)
  exact ⟨r, s, p, q, raised, ⟨lifted, lifted', part, part', dimension⟩,
    append_of_parts validHead validTail dimension raised raised' clamped clamped'⟩

/-- **Appending keeps curves sound.** -/
theorem sound_append {e : Curve K} (ok : head.append tail = .ok e) : e.Sound := by
  obtain ⟨validHead, validTail, dimension, withinHead, withinTail⟩ := append_eq_ok ok
  obtain ⟨r, s, p, q, -, joint, result⟩ :=
    append_eq validHead validTail dimension withinHead withinTail
  cases result.symm.trans ok
  exact joint.shape.sound

/-- **Where neither curve overreaches, the joined curve is regular.** -/
theorem regular_append {e : Curve K} (clear : ¬head.Overreaches (max head.order tail.order))
    (clear' : ¬tail.Overreaches (max head.order tail.order)) (ok : head.append tail = .ok e) :
    e.Regular := by
  obtain ⟨validHead, validTail, dimension, withinHead, withinTail⟩ := append_eq_ok ok
  obtain ⟨r, s, p, q, -, joint, result⟩ :=
    append_eq validHead validTail dimension withinHead withinTail
  cases result.symm.trans ok
  exact (joint.joined (regular_of_isValid validHead).dimension_pos clear clear').1

/-- **Appending joins the two curves, unless raising their orders overreaches.**  It always
succeeds with the joined shape; the values are those of the parts wherever raising the orders
keeps them. -/
theorem append_joins_curves (validHead : head.isValid = true) (validTail : tail.isValid = true)
    (dimension : head.dimension = tail.dimension) (withinHead : head.order ≤ maxOrder)
    (withinTail : tail.order ≤ maxOrder) :
    ∃ e, head.append tail = .ok e ∧ JoinedShape head tail e
      ∧ (¬head.Overreaches (max head.order tail.order) →
          ¬tail.Overreaches (max head.order tail.order) → JoinedCurve head tail e) := by
  obtain ⟨r, s, p, q, -, joint, result⟩ :=
    append_eq validHead validTail dimension withinHead withinTail
  exact ⟨_, result, joint.shape, fun clear clear' =>
    (joint.joined (regular_of_isValid validHead).dimension_pos clear clear').2⟩

/-- The rational curve with an unclamped start, joined with itself reversed. -/
theorem append_joins_openStart :
    openStart.isValid = true ∧ openStart.invert.isValid = true
      ∧ openStart.dimension = openStart.invert.dimension ∧ openStart.order ≤ maxOrder
      ∧ openStart.invert.order ≤ maxOrder
      ∧ ∃ e, openStart.append openStart.invert = .ok e
        ∧ JoinedCurve openStart openStart.invert e := by
  have valid : openStart.isValid = true := by decide +kernel
  have valid' : openStart.invert.isValid = true := by decide +kernel
  obtain ⟨e, ok, -, joined⟩ := append_joins_curves valid valid' rfl (by decide) (by decide)
  refine ⟨valid, valid', rfl, by decide, by decide, e, ok, joined ?_ ?_⟩
  · exact fun bad => absurd bad.1 (by decide)
  · exact fun bad => absurd bad.1 (by decide)

/-- A head without weights that raising bends is bent where it is joined to a tail that starts
at its end. -/
theorem not_joinedCurve (validHead : head.isValid = true) (validTail : tail.isValid = true)
    (dimension : head.dimension = tail.dimension) (above : head.order < tail.order)
    (within : tail.order ≤ maxOrder) (plainHead : head.isRational = false)
    (plainTail : tail.isRational = false)
    (meet : head.definedAt head.domain.2 = tail.definedAt tail.domain.1)
    (bent : ¬∃ e, head.raiseOrder tail.order = .ok e ∧ RaisedCurve head tail.order e) :
    ¬∃ e, head.append tail = .ok e ∧ JoinedCurve head tail e := by
  rintro ⟨e, ok, joined⟩
  obtain ⟨r, s, p, q, raised, joint, result⟩ :=
    append_eq validHead validTail dimension (above.le.trans within) within
  cases result.symm.trans ok
  rw [max_eq_right above.le] at raised
  obtain ⟨-, same⟩ | ⟨-, -, -, shape⟩ := raiseOrder_eq_ok raised
  · exact absurd same above.ne'
  obtain ⟨adjacent, moved⟩ := joint.adjacent
  have plainFirst : p.isRational = false := by rw [joint.rational.1, plainHead, plainTail]; rfl
  have plainSplice : (splice p (attach p q)).isRational = false :=
    (ControlPoints.isRational_withVectors _ _).trans plainFirst
  have posFirst : p.points.Positive := fun has => absurd has (by
    rw [show p.points.isRational = false from plainFirst]; exact Bool.false_ne_true)
  have posSecond : q.points.Positive := fun has => absurd has (by
    rw [show q.points.isRational = false from joint.rational.2.trans plainFirst]
    exact Bool.false_ne_true)
  -- the tail starts where the head is to end
  have clear : ¬tail.Overreaches (max head.order tail.order) := fun bad => by
    have := bad.1
    have := bad.2.1
    omega
  have start : (attach p q).points.vectors.getD 0 [] = head.definedAt head.domain.2 := by
    have lt := joint.domain_second ▸ joint.second.lt
    have first := definedAt_attach joint.first.toEnded joint.second.toEnded posFirst posSecond
      tail.domain.1
    rw [joint.domain_first, joint.domain_second, add_sub_cancel,
        joint.value_second clear (le_refl _) lt.le, ← meet] at first
    rw [← adjacent.second.definedVector_start,
        ← definedAt_eq_definedVector (adjacent.rational.trans plainFirst), moved]
    exact first
  -- so the head ends there as well
  have closed : Curve.joint p (attach p q) = p.points.vectors.getD (p.pointCount - 1) [] := by
    have middle := joined.middle
    rw [← meet, Point.midpoint_self, definedAt_eq_definedVector plainSplice, ← joint.domain_first,
        adjacent.definedVector_joint, joint.domain_first, ← start] at middle
    rw [middle]
    rw [adjacent.joint_eq] at middle
    exact (Point.eq_of_midpoint adjacent.length_ends middle).symm
  refine bent ⟨r, raised, shape, fun t h₀ h₁ => ?_⟩
  rw [← joined.before meet t h₀ h₁, definedAt_eq_definedVector plainSplice,
      adjacent.definedVector_head closed (joint.domain_first.symm ▸ h₀)
        (joint.domain_first.symm ▸ h₁), ← definedAt_eq_definedVector plainFirst,
      joint.first.value t (shape.domain.symm ▸ h₀) (shape.domain.symm ▸ h₁)]

/-- A straight line of order 12 that starts where the steady line ends. -/
def steadyTail : Curve ℚ where
  dimension := 1
  order := 12
  points := .cartesian [[33], [34], [35], [36], [37], [38], [39], [40], [41], [42], [43], [44]]
  knots := ⟨[0, 0, 0, 0, 0, 0, 0, 0, 0, 0, 0, 1, 1, 1, 1, 1, 1, 1, 1, 1, 1, 1]⟩

/-- Joined to a line that starts at its end, the steady line is no longer straight. -/
theorem steadyLine_not_joined :
    steadyLine.isValid = true ∧ steadyTail.isValid = true
      ∧ steadyLine.dimension = steadyTail.dimension ∧ steadyLine.order ≤ maxOrder
      ∧ steadyTail.order ≤ maxOrder
      ∧ steadyLine.definedAt steadyLine.domain.2 = steadyTail.definedAt steadyTail.domain.1
      ∧ ¬∃ e, steadyLine.append steadyTail = .ok e ∧ JoinedCurve steadyLine steadyTail e := by
  have valid : steadyLine.isValid = true := by decide +kernel
  have valid' : steadyTail.isValid = true := by decide +kernel
  have ended : steadyLine.Ended := by
    refine ((regular_of_isValid valid).toSound.ended_of_values (show (0 : ℚ) < 3 by norm_num)
      (show steadyLine.knots.values = List.replicate 10 0 ++ [1, 2, 2, 2]
          ++ List.replicate 10 3 from rfl) (by decide +kernel) fun u => ?_).1
    exact List.count_le_length.trans (by decide)
  have ended' : steadyTail.Ended := by
    refine ((regular_of_isValid valid').toSound.ended_of_values (show (0 : ℚ) < 1 by norm_num)
      (show steadyTail.knots.values = List.replicate 11 0 ++ [] ++ List.replicate 11 1 from rfl)
          (by decide +kernel) fun u => ?_).1
    exact List.count_le_length.trans (by decide)
  have meet : steadyLine.definedAt steadyLine.domain.2
      = steadyTail.definedAt steadyTail.domain.1 := by
    rw [definedAt_eq_definedVector rfl, definedAt_eq_definedVector rfl,
        ended.definedVector_finish, ended'.definedVector_start]
    decide +kernel
  refine ⟨valid, valid', rfl, by decide, by decide, meet, not_joinedCurve valid valid' rfl
    (by decide) (by decide) rfl rfl meet ?_⟩
  have line : steadyLine.lineCurve 1 = steadyLine := by decide +kernel
  have bent := not_raisedCurve_lineCurve valid
    (show steadyLine.Overreaches 12 from ⟨rfl, rfl, 1, 2, by decide +kernel⟩)
  rwa [line] at bent

end Curve

end RationalSpline
