/-
  RationalSpline.Proofs.Associativity
  ───────────────────────────────────
  APPENDING THREE CURVES.

  Two ready parts are linked by moving the second to the end of the first and giving its
  vectors the factor that makes the weights meet.  Shifts add up and factors multiply, so
  linking is associative.  What appending does before it links — clamping, raising the
  order, giving weights — passes through a link, and what is done twice is done once.
  Raising passes through only where the two vectors at the joint agree, and they do where
  the curves meet.
-/
import RationalSpline.Proofs.RaisedParts

namespace RationalSpline

variable {K : Type} [Field K] [LinearOrder K] [IsStrictOrderedRing K]

namespace Point

omit [IsStrictOrderedRing K] in
theorem scale_midpoint (x y : Point K) (a : K) :
    scale (midpoint x y) a = midpoint (scale x a) (scale y a) := by
  rw [midpoint, scale_scale, mul_comm, ← scale_scale, scale_add, midpoint]

theorem midpoint_concat_one {x y : Point K} (same : x.length = y.length) :
    midpoint (x ++ [1]) (y ++ [1]) = midpoint x y ++ [1] := by
  have one : ((1 : K) + 1) * Scalar.half = 1 := by
    show ((1 : K) + 1) * (1 / 2) = 1
    norm_num
  rw [midpoint, add_concat same, scale_concat, one, midpoint]

end Point

namespace Curve

variable {c head tail : Curve K} {order : Nat}

/-! ## §1. Linking. -/

/-- The two curves, the second attached to the first. -/
def link (head tail : Curve K) : Curve K := splice head (attach head tail)

/-- Two curves with full ends that differ in their knots and vectors alone. -/
structure Fitting (head tail : Curve K) : Prop where
  /-- The first has full ends. -/
  first : head.Ended
  /-- So has the second. -/
  second : tail.Ended
  /-- The locations have as many coordinates. -/
  dimension : tail.dimension = head.dimension
  /-- The orders agree. -/
  order : tail.order = head.order
  /-- The vectors have one meaning. -/
  rational : tail.isRational = head.isRational

omit [IsStrictOrderedRing K] in
theorem isRational_link (head tail : Curve K) : (link head tail).isRational = head.isRational :=
  ControlPoints.isRational_withVectors _ _

theorem values_link (h : tail.Ended) (head : Curve K) : (link head tail).knots.values
    = head.knots.values ++ (tail.knots.values.drop (head.order - 1)).map
        (· + (head.domain.2 - tail.domain.1)) := by
  show head.knots.values ++ (attach head tail).knots.values.drop (head.order - 1) = _
  rw [(h.moved_attach head).knots, List.map_drop]
  rfl

theorem vectors_link (h : tail.Ended) {x y : Point K} {before after : List (Point K)}
    (last : head.points.vectors = before ++ [x]) (first : tail.points.vectors = y :: after) :
    (link head tail).points.vectors
      = before ++ Point.midpoint x (Point.scale y (attachFactor head tail))
        :: after.map (Point.scale · (attachFactor head tail)) := by
  rw [link, vectors_splice, joint, (h.moved_attach head).vectors, last, first]
  simp

namespace Fitting

theorem adjacent (h : Fitting head tail) : Adjacent head (attach head tail) :=
  (adjacent_attach h.first h.second h.dimension h.order h.rational).1

theorem ended_link (h : Fitting head tail) : (link head tail).Ended
    ∧ (link head tail).domain
      = (head.domain.1, head.domain.2 + (tail.domain.2 - tail.domain.1)) := by
  obtain ⟨ended, domain, -⟩ := h.adjacent.ended_splice
  obtain ⟨-, moved⟩ := adjacent_attach h.first h.second h.dimension h.order h.rational
  exact ⟨ended, by rw [link, domain, moved]⟩

end Fitting

omit [IsStrictOrderedRing K] in
/-- A curve with full ends has at least two control vectors. -/
theorem Ended.exists_ends (h : c.Ended) :
    ∃ (x y : Point K) (inner : List (Point K)), c.points.vectors = x :: inner ++ [y] := by
  have count := h.pointCount_eq
  have positive := h.degree_pos
  have length : c.points.vectors.length = c.pointCount := rfl
  obtain ⟨x, rest, parts⟩ := List.exists_cons_of_length_pos
    (show 0 < c.points.vectors.length by omega)
  rw [parts, List.length_cons] at length
  obtain ⟨inner, y, parts'⟩ := (List.eq_nil_or_concat' rest).resolve_left
    (List.ne_nil_of_length_pos (by omega))
  exact ⟨x, y, inner, by rw [parts, parts', List.cons_append]⟩

/-- **Linking is associative.** -/
theorem link_assoc {a b c : Curve K} (ab : Fitting a b) (bc : Fitting b c) :
    link (link a b) c = link a (link b c) := by
  obtain ⟨a₀, a₁, as, ha⟩ := ab.first.exists_ends
  obtain ⟨b₀, b₁, bs, hb⟩ := ab.second.exists_ends
  obtain ⟨c₀, c₁, cs, hc⟩ := bc.second.exists_ends
  obtain ⟨-, domainAB⟩ := ab.ended_link
  obtain ⟨endedBC, domainBC⟩ := bc.ended_link
  have vectorsAB := vectors_link ab.second ha (hb.trans List.cons_append)
  have vectorsBC := vectors_link bc.second hb (hc.trans List.cons_append)
  rw [List.map_append, List.map_singleton, List.append_cons, ← List.append_assoc] at vectorsAB
  rw [List.cons_append] at vectorsBC
  have rationalAB := isRational_link a b
  have rationalBC := isRational_link b c
  -- the factors multiply
  have left : attachFactor (link a b) c = attachFactor b c * attachFactor a b := by
    rw [attachFactor_eq (bc.rational.trans (ab.rational.trans rationalAB.symm)),
        attachFactor_eq bc.rational, vectorsAB, hb, List.getLast?_concat, List.getLast?_concat]
    split
    · exact (congrArg (· / _) (Point.weight_scale b₁ _)).trans (mul_div_right_comm _ _ _)
    · next plain =>
        rw [attachFactor_eq ab.rational, ← bc.rational, if_neg plain, mul_one]
  have right : attachFactor a (link b c) = attachFactor a b := by
    rw [attachFactor_eq (rationalBC.trans ab.rational), attachFactor_eq ab.rational, rationalBC,
        vectorsBC, hb]
    rfl
  refine eq_of_stored rfl rfl ?_ ?_ ?_
  · rw [isRational_link, isRational_link, isRational_link]
  · -- the shifts add up
    have enough : a.order - 1 ≤ b.knots.values.length := by
      have values := congrArg List.length ab.second.values
      rw [List.length_append, List.length_replicate, Curve.degree, ab.order] at values
      omega
    have shifts : ∀ k : K, k + (b.domain.2 - c.domain.1) + (a.domain.2 - b.domain.1)
        = k + (a.domain.2 + (b.domain.2 - b.domain.1) - c.domain.1) := fun k => by ring
    rw [values_link bc.second, values_link ab.second, values_link endedBC, values_link bc.second,
        domainAB, domainBC, List.drop_append_of_le_length enough, List.map_append, List.map_map,
        List.append_assoc, ab.order]
    simp only [Function.comp_def, shifts]
    rfl
  · rw [vectors_link bc.second vectorsAB (hc.trans List.cons_append),
        vectors_link endedBC ha vectorsBC, left, right]
    simp [Point.scale_midpoint, Point.scale_scale]

/-! ## §2. What passes through a link. -/

omit [IsStrictOrderedRing K] in
theorem Ended.weighted (h : c.Ended) (weights : Bool) : (weighted c weights).Ended :=
  h.repointed (h.toSound.repointed_weighted weights)

omit [IsStrictOrderedRing K] in
theorem weighted_weighted (c : Curve K) (weights more : Bool) :
    weighted (weighted c weights) more = weighted c (weights || more) := by
  cases weights with
  | false => rfl
  | true =>
      cases more with
      | false => rfl
      | true => exact makeRational_of_isRational (isRational_makeRational c)

namespace Fitting

omit [IsStrictOrderedRing K] in
theorem weighted (h : Fitting head tail) (weights : Bool) :
    Fitting (weighted head weights) (weighted tail weights) where
  first := h.first.weighted weights
  second := h.second.weighted weights
  dimension := by
    rw [(h.second.toSound.repointed_weighted weights).dimension, h.dimension,
        (h.first.toSound.repointed_weighted weights).dimension]
  order := by
    rw [(h.second.toSound.repointed_weighted weights).order, h.order,
        (h.first.toSound.repointed_weighted weights).order]
  rational := by
    rw [isRational_weighted, isRational_weighted, h.rational]

/-- The weight 1 passes through a link. -/
theorem link_makeRational (h : Fitting head tail) (rational : head.isRational = false) :
    link head.makeRational tail.makeRational = (link head tail).makeRational := by
  have plain : tail.isRational = false := h.rational.trans rational
  obtain ⟨x₀, x₁, xs, hx⟩ := h.first.exists_ends
  obtain ⟨y₀, y₁, ys, hy⟩ := h.second.exists_ends
  have ended : tail.makeRational.Ended := h.second.weighted true
  have same : x₁.length = y₀.length := by
    rw [h.first.sized x₁ (by simp [hx]), h.second.sized y₀ (by simp [hy]), vectorSize,
        vectorSize, h.rational, h.dimension]
  have vectorsHead : head.makeRational.points.vectors
      = (x₀ :: xs).map (· ++ [1]) ++ [x₁ ++ [1]] := by
    rw [vectors_makeRational rational, hx, List.map_append]
    rfl
  have vectorsTail : tail.makeRational.points.vectors
      = (y₀ ++ [1]) :: (ys ++ [y₁]).map (· ++ [1]) := by
    rw [vectors_makeRational plain, hy, List.cons_append]
    rfl
  -- the weights that meet are both 1
  have factor : attachFactor head tail = 1 := by
    rw [attachFactor_eq h.rational, if_neg (by rw [plain]; exact Bool.false_ne_true)]
  have factor' : attachFactor head.makeRational tail.makeRational = 1 := by
    rw [attachFactor_eq (by rw [isRational_makeRational, isRational_makeRational]),
        vectorsHead, vectorsTail, List.getLast?_concat]
    simp [Point.weight]
  refine eq_of_stored rfl rfl ?_ ?_ ?_
  · rw [isRational_link, isRational_makeRational, isRational_makeRational]
  · show (link head.makeRational tail.makeRational).knots.values
      = (link head tail).knots.values
    rw [values_link ended, values_link h.second]
    rfl
  · rw [vectors_makeRational ((isRational_link head tail).trans rational),
        vectors_link ended vectorsHead vectorsTail,
        vectors_link h.second hx (hy.trans List.cons_append), factor, factor']
    simp [Point.scale_one, Point.midpoint_concat_one same]

/-- **Weights pass through a link.** -/
theorem link_weighted (h : Fitting head tail) (weights : Bool) :
    link (Curve.weighted head weights) (Curve.weighted tail weights)
      = Curve.weighted (link head tail) weights := by
  cases weights with
  | false => rfl
  | true =>
      show link head.makeRational tail.makeRational = (link head tail).makeRational
      cases rational : head.isRational with
      | true =>
          rw [makeRational_of_isRational rational,
              makeRational_of_isRational (h.rational.trans rational),
              makeRational_of_isRational ((isRational_link head tail).trans rational)]
      | false => exact h.link_makeRational rational

omit [IsStrictOrderedRing K] in
theorem raisedTo (h : Fitting head tail) (above : head.order ≤ order) :
    Fitting (head.raisedTo order) (tail.raisedTo order) := by
  have shape := h.first.raisedTo above
  have shape' := h.second.raisedTo (h.order.symm ▸ above)
  refine ⟨shape.toEnded, shape'.toEnded, ?_, ?_, ?_⟩
  · rw [shape'.dimension, h.dimension, shape.dimension]
  · rw [shape'.order_eq, shape.order_eq]
  · rw [shape'.rational, h.rational, shape.rational]

/-- **Raising the order passes through a link that closes.** -/
theorem link_raisedTo (h : Fitting head tail) (above : head.order ≤ order)
    (closed : head.order < order → Closed head (attach head tail)) :
    link (head.raisedTo order) (tail.raisedTo order) = (link head tail).raisedTo order := by
  rw [link, link, h.adjacent.raisedTo_splice above closed,
      raisedTo_attach h.first h.second h.order h.rational above]

end Fitting

/-! ## §3. Ready parts. -/

/-- The curve in the order `order`, with weights if they are asked for. -/
def ready (c : Curve K) (order : Nat) (weights : Bool) : Curve K :=
  weighted (c.raisedTo order) weights

theorem Fitting.link_ready (h : Fitting head tail) (above : head.order ≤ order) (weights : Bool)
    (closed : head.order < order → Closed head (attach head tail)) :
    link (ready head order weights) (ready tail order weights)
      = ready (link head tail) order weights := by
  rw [ready, ready, (h.raisedTo above).link_weighted, h.link_raisedTo above closed, ready]

/-- What is made ready twice is ready after the second time. -/
theorem Ended.ready_ready (h : c.Ended) (regular : c.Regular) {middle : Nat}
    (above : c.order ≤ middle) (above' : middle ≤ order) (within : order ≤ maxOrder)
    (weights more : Bool) :
    ready (ready c middle weights) order more = ready c order (weights || more) := by
  rw [ready, ready, (h.raisedTo above).toEnded.raisedTo_weighted,
      h.raisedTo_raisedTo regular above above' within, weighted_weighted, ready]

omit [IsStrictOrderedRing K] in
theorem Ended.fitting_ready (first : head.Ended) (second : tail.Ended)
    (dimension : tail.dimension = head.dimension) (above : head.order ≤ order)
    (above' : tail.order ≤ order) {weights : Bool}
    (covers : (head.isRational || weights) = weights)
    (covers' : (tail.isRational || weights) = weights) :
    Fitting (ready head order weights) (ready tail order weights) := by
  have shape := first.raisedTo above
  have shape' := second.raisedTo above'
  have repointed := shape.toSound.repointed_weighted weights
  have repointed' := shape'.toSound.repointed_weighted weights
  refine ⟨shape.toEnded.weighted weights, shape'.toEnded.weighted weights, ?_, ?_, ?_⟩
  · rw [ready, repointed'.dimension, shape'.dimension, dimension, ready, repointed.dimension,
        shape.dimension]
  · rw [ready, repointed'.order, shape'.order_eq, ready, repointed.order, shape.order_eq]
  · rw [ready, isRational_weighted, shape'.rational, covers', ready, isRational_weighted,
        shape.rational, covers]

variable {b : Curve K}

/-- The values stay the same, with or without the weight 1. -/
theorem Keeps.definedVector_weighted (h : Keeps c b) (hc : c.Sound) (hb : b.Sound)
    (lt : c.domain.1 < c.domain.2) (weights : Bool) {t : K} (h₀ : c.domain.1 ≤ t)
    (h₁ : t ≤ c.domain.2) :
    (weighted b weights).definedVector t = (weighted c weights).definedVector t := by
  have same := h.definedVector_eq hc hb lt h₀ h₁
  cases weights with
  | false => exact same
  | true =>
      show b.makeRational.definedVector t = c.makeRational.definedVector t
      cases rational : c.isRational with
      | true =>
          rwa [makeRational_of_isRational rational,
            makeRational_of_isRational (h.rational.trans rational)]
      | false =>
          rw [hc.definedVector_makeRational lt rational h₀ h₁, ← same]
          rw [← h.domain] at lt h₀ h₁
          exact hb.definedVector_makeRational lt (h.rational.trans rational) h₀ h₁

namespace Prepared

omit [IsStrictOrderedRing K] in
/-- The clamped form has full ends and the breaks of the curve. -/
theorem ended (h : Prepared c b) :
    b.Ended ∧ KnotVector.runs b.interior = KnotVector.runs c.interior := by
  obtain ⟨ended, -, runs⟩ := h.sound.ended_of_clamped h.clamped
  exact ⟨ended, runs⟩

theorem regular (h : Prepared c b) (regular : c.Regular) : b.Regular :=
  h.ended.1.regular (h.keeps.dimension.symm ▸ regular.dimension_pos)
    (h.keeps.positive regular.toSound regular.positive)

/-- Clamping passes through weights. -/
theorem clampEnds_weighted (h : Prepared c b) (regular : c.Regular) (weights : Bool) :
    (weighted c weights).clampEnds = .ok (weighted b weights) := by
  have repointed := regular.toSound.repointed_weighted weights
  have repointed' := h.sound.repointed_weighted weights
  obtain ⟨e, prepared⟩ := (repointed.regular regular
    (positive_weighted regular.positive weights)).prepared
  have whole : (weighted b weights).Regular := repointed'.regular (h.regular regular)
    (positive_weighted (h.regular regular).positive weights)
  have lt := regular.domain_lt
  have interior : (weighted c weights).interior = c.interior := by
    rw [Curve.interior, repointed.knots, repointed.domain, Curve.interior]
  have degree : e.degree = b.degree := by
    rw [prepared.keeps.degree, h.keeps.degree, Curve.degree, repointed.order, Curve.degree]
  have knots : e.knots = (weighted b weights).knots := by
    have padded : e.spline.knots.values = b.spline.knots.values := by
      rw [prepared.clamped.values, h.clamped.values, interior, repointed.domain, degree]
    rw [repointed'.knots, ← KnotVector.unpadded_padded e.knots e.order,
        ← KnotVector.unpadded_padded b.knots b.order]
    exact congrArg (fun values => (KnotVector.mk values).unpadded) padded
  rw [prepared.ok]
  -- a regular curve is determined by its knots and its values
  refine congrArg Except.ok (whole.eq_of_definedVector prepared.sound ?_ ?_ ?_ knots
    fun t h₀ h₁ => ?_)
  · rw [prepared.keeps.dimension, repointed.dimension, repointed'.dimension, h.keeps.dimension]
  · rw [prepared.keeps.order, repointed.order, repointed'.order, h.keeps.order]
  · rw [prepared.keeps.rational, isRational_weighted, isRational_weighted, h.keeps.rational]
  · rw [repointed'.domain, h.keeps.domain] at h₀ h₁
    rw [h.keeps.definedVector_weighted regular.toSound h.sound lt weights h₀ h₁]
    rw [← repointed.domain] at h₀ h₁ lt
    exact prepared.keeps.definedVector_eq (repointed.sound regular.toSound) prepared.sound lt h₀ h₁

variable [Precision K] [Precision.Exact K]

/-- **What is linked: the clamped form, raised and with weights.** -/
theorem clampEnds_raised (h : Prepared c b) (valid : c.isValid = true) (above : c.order ≤ order)
    (within : order ≤ maxOrder) {r : Curve K} (raised : c.raiseOrder order = .ok r)
    (weights : Bool) : (weighted r weights).clampEnds = .ok (ready b order weights) := by
  have regular := regular_of_isValid valid
  obtain ⟨ended, runs⟩ := h.ended
  rcases eq_or_lt_of_le above with rfl | above
  · have same : r = c := by
      unfold Curve.raiseOrder at raised
      rw [if_neg (by omega), if_pos rfl] at raised
      exact (Except.ok.inj raised).symm
    rw [same, ready, raisedTo_of_le h.keeps.order.ge]
    exact h.clampEnds_weighted regular weights
  · have shape : r = b.raisedTo order := by
      rw [raisedTo_of_lt (h.keeps.order.symm ▸ above), vectorsRaised, raisedVectors, runs,
          h.keeps.domain, h.keeps.order]
      exact Except.ok.inj (raised.symm.trans (h.raiseOrder_eq valid above within))
    rw [shape]
    exact ((ended.raisedTo (h.keeps.order.symm ▸ above.le)).toEnded.weighted weights).clampEnds_eq

end Prepared

/-! ## §4. Appending. -/

section Append

variable [Precision K] [Precision.Exact K] {x y : Curve K}

/-- **Appending links the two clamped curves, made ready for one another.** -/
theorem append_eq_link (validHead : head.isValid = true) (validTail : tail.isValid = true)
    (dimension : head.dimension = tail.dimension) (withinHead : head.order ≤ maxOrder)
    (withinTail : tail.order ≤ maxOrder) (first : Prepared head x) (second : Prepared tail y) :
    (∃ r s, Joint head tail r s
        (ready x (max head.order tail.order) (head.isRational || tail.isRational))
        (ready y (max head.order tail.order) (head.isRational || tail.isRational)))
      ∧ head.append tail = .ok
        (link (ready x (max head.order tail.order) (head.isRational || tail.isRational))
          (ready y (max head.order tail.order) (head.isRational || tail.isRational))) := by
  have within := max_le withinHead withinTail
  have above := le_max_left head.order tail.order
  have above' := le_max_right head.order tail.order
  obtain ⟨r, raised, lifted⟩ := exists_lifted validHead above within
  obtain ⟨s, raised', lifted'⟩ := exists_lifted validTail above' within
  have clamped := first.clampEnds_raised validHead above within raised
    (r.isRational || s.isRational)
  have clamped' := second.clampEnds_raised validTail above' within raised'
    (r.isRational || s.isRational)
  obtain ⟨p, ok, part⟩ := lifted.toSound.exists_part
    (lifted.domain.symm ▸ (regular_of_isValid validHead).domain_lt) lifted.count_le
    (r.isRational || s.isRational)
  obtain ⟨q, ok', part'⟩ := lifted'.toSound.exists_part
    (lifted'.domain.symm ▸ (regular_of_isValid validTail).domain_lt) lifted'.count_le
    (r.isRational || s.isRational)
  -- the parts that are joined are the ready ones
  cases ok.symm.trans clamped
  cases ok'.symm.trans clamped'
  have result := append_of_parts validHead validTail dimension raised raised' clamped clamped'
  have weights : (r.isRational || s.isRational) = (head.isRational || tail.isRational) := by
    rw [lifted.rational, lifted'.rational]
  have joint : Joint head tail r s _ _ := ⟨lifted, lifted', part, part', dimension⟩
  rw [weights] at joint result
  exact ⟨⟨r, s, joint⟩, result⟩

omit [Precision K] [Precision.Exact K] in
/-- Where the curves meet, and the order is to be raised once more, the link closes. -/
theorem Joint.closed_of_lt {r s p q : Curve K} (h : Joint head tail r s p q)
    (meet : head.definedAt head.domain.2 = tail.definedAt tail.domain.1)
    (within : order ≤ maxOrder) (lt : p.order < order) : Closed p (attach p q) := by
  have twelve : maxOrder = 12 := rfl
  have common : p.order = max head.order tail.order := h.first.order.trans h.liftHead.order_eq
  refine h.closed (fun bad => ?_) (fun bad => ?_) meet <;>
  · have := bad.2.1
    omega

/-- What is appended, made ready for more. -/
theorem ready_append (validHead : head.isValid = true) (validTail : tail.isValid = true)
    (dimension : head.dimension = tail.dimension) (first : Prepared head x)
    (second : Prepared tail y)
    (meet : head.definedAt head.domain.2 = tail.definedAt tail.domain.1)
    (above : max head.order tail.order ≤ order) (within : order ≤ maxOrder) (weights : Bool)
    (covers : (head.isRational || tail.isRational || weights) = weights) :
    ∃ e, head.append tail = .ok e ∧ e.Ended
      ∧ e.dimension = head.dimension ∧ e.order = max head.order tail.order
      ∧ e.isRational = (head.isRational || tail.isRational)
      ∧ ready e order weights = link (ready x order weights) (ready y order weights)
      ∧ Fitting (ready x order weights) (ready y order weights) := by
  have above₁ := (le_max_left head.order tail.order).trans above
  have above₂ := (le_max_right head.order tail.order).trans above
  obtain ⟨⟨r, s, joint⟩, result⟩ := append_eq_link validHead validTail dimension
    (above₁.trans within) (above₂.trans within) first second
  have shape := joint.shape
  obtain ⟨ended, -⟩ := first.ended
  obtain ⟨ended', -⟩ := second.ended
  have regular := first.regular (regular_of_isValid validHead)
  have regular' := second.regular (regular_of_isValid validTail)
  have order₁ := first.keeps.order
  have order₂ := second.keeps.order
  have rational₁ := first.keeps.rational
  have rational₂ := second.keeps.rational
  have same : y.dimension = x.dimension := by
    rw [second.keeps.dimension, first.keeps.dimension, dimension]
  have order : x.order ≤ max head.order tail.order := by omega
  have order' : y.order ≤ max head.order tail.order := by omega
  -- the parts fit in the order that appending gives them, and so in every higher one
  have fitting : Fitting
      (ready x (max head.order tail.order) (head.isRational || tail.isRational))
      (ready y (max head.order tail.order) (head.isRational || tail.isRational)) :=
    ended.fitting_ready ended' same order order'
      (by rw [rational₁]; cases head.isRational <;> rfl)
      (by rw [rational₂]; cases head.isRational <;> cases tail.isRational <;> rfl)
  have common : (ready x (max head.order tail.order) (head.isRational || tail.isRational)).order
      = max head.order tail.order := joint.first.order.trans joint.liftHead.order_eq
  refine ⟨_, result, fitting.ended_link.1, shape.dimension, shape.order, shape.rational, ?_, ?_⟩
  · rw [← fitting.link_ready (common.symm ▸ above) weights (joint.closed_of_lt meet within),
        ended.ready_ready regular order above within,
        ended'.ready_ready regular' order' above within, covers]
  · refine ended.fitting_ready ended' same (order.trans above) (order'.trans above) ?_ ?_
    · rw [rational₁, ← covers]
      cases head.isRational <;> rfl
    · rw [rational₂, ← covers]
      cases head.isRational <;> cases tail.isRational <;> rfl

/-- **Appending is associative.**  Of three valid curves that meet, it does not matter which two
are joined first, as long as the two that are joined first make a valid curve. -/
theorem append_associative {a b c : Curve K} (validA : a.isValid = true) (validB : b.isValid = true)
    (validC : c.isValid = true) (dimension : a.dimension = b.dimension)
    (dimension' : b.dimension = c.dimension) (withinA : a.order ≤ maxOrder)
    (withinB : b.order ≤ maxOrder) (withinC : c.order ≤ maxOrder)
    (meet : a.definedAt a.domain.2 = b.definedAt b.domain.1)
    (meet' : b.definedAt b.domain.2 = c.definedAt c.domain.1) :
    ∃ ab bc, a.append b = .ok ab ∧ b.append c = .ok bc
      ∧ (ab.isValid = true → bc.isValid = true →
          ∃ e, ab.append c = .ok e ∧ a.append bc = .ok e) := by
  obtain ⟨x, first⟩ := (regular_of_isValid validA).prepared
  obtain ⟨y, second⟩ := (regular_of_isValid validB).prepared
  obtain ⟨z, third⟩ := (regular_of_isValid validC).prepared
  have within : max (max a.order b.order) c.order ≤ maxOrder :=
    max_le (max_le withinA withinB) withinC
  have above : max b.order c.order ≤ max (max a.order b.order) c.order :=
    max_le ((le_max_right a.order _).trans (le_max_left _ _)) (le_max_right _ _)
  obtain ⟨ab, okAB, endedAB, dimensionAB, orderAB, rationalAB, readyAB, fittingAB⟩ :=
    ready_append validA validB dimension first second meet (le_max_left _ c.order) within
      (a.isRational || b.isRational || c.isRational)
      (by cases a.isRational <;> cases b.isRational <;> rfl)
  obtain ⟨bc, okBC, endedBC, dimensionBC, orderBC, rationalBC, readyBC, fittingBC⟩ :=
    ready_append validB validC dimension' second third meet' above within
      (a.isRational || b.isRational || c.isRational)
      (by cases a.isRational <;> cases b.isRational <;> cases c.isRational <;> rfl)
  refine ⟨ab, bc, okAB, okBC, fun validAB validBC => ?_⟩
  obtain ⟨-, left⟩ := append_eq_link validAB validC (dimensionAB.trans (dimension.trans dimension'))
    (orderAB.trans_le (max_le withinA withinB)) withinC endedAB.prepared third
  obtain ⟨-, right⟩ := append_eq_link validA validBC (dimension.trans dimensionBC.symm) withinA
    (orderBC.trans_le (max_le withinB withinC)) first endedBC.prepared
  -- both groupings link the same three ready curves
  rw [orderAB, rationalAB, readyAB, link_assoc fittingAB fittingBC] at left
  rw [orderBC, rationalBC, ← max_assoc, ← Bool.or_assoc, readyBC] at right
  exact ⟨_, left, right⟩

end Append

/-- A straight line down to where the rational curve with an unclamped start begins. -/
def ramp : Curve ℚ where
  dimension := 1
  order := 2
  points := .cartesian [[3], [1]]
  knots := ⟨[0, 1]⟩

/-- A line without weights, a rational curve of a higher order, and the line back up. -/
theorem append_associative_ramp :
    ramp.isValid = true ∧ openStart.isValid = true ∧ ramp.invert.isValid = true
      ∧ ramp.dimension = openStart.dimension ∧ openStart.dimension = ramp.invert.dimension
      ∧ ramp.order ≤ maxOrder ∧ openStart.order ≤ maxOrder ∧ ramp.invert.order ≤ maxOrder
      ∧ ramp.definedAt ramp.domain.2 = openStart.definedAt openStart.domain.1
      ∧ openStart.definedAt openStart.domain.2 = ramp.invert.definedAt ramp.invert.domain.1
      ∧ ∃ ab bc e, ramp.append openStart = .ok ab ∧ ab.isValid = true
        ∧ openStart.append ramp.invert = .ok bc ∧ bc.isValid = true
        ∧ ab.append ramp.invert = .ok e ∧ ramp.append bc = .ok e := by
  have valid : ramp.isValid = true := by decide +kernel
  have valid' : openStart.isValid = true := by decide +kernel
  have valid'' : ramp.invert.isValid = true := by decide +kernel
  have meet : ramp.definedAt ramp.domain.2 = openStart.definedAt openStart.domain.1 := by
    decide +kernel
  have meet' : openStart.definedAt openStart.domain.2
      = ramp.invert.definedAt ramp.invert.domain.1 := by
    decide +kernel
  have first : (ramp.append openStart).toOption.map (·.isValid) = some true := by decide +kernel
  have second : (openStart.append ramp.invert).toOption.map (·.isValid) = some true := by
    decide +kernel
  obtain ⟨ab, bc, okAB, okBC, grouped⟩ := append_associative valid valid' valid'' rfl rfl
    (by decide) (by decide) (by decide) meet meet'
  rw [okAB] at first
  rw [okBC] at second
  have validAB : ab.isValid = true := Option.some.inj first
  have validBC : bc.isValid = true := Option.some.inj second
  obtain ⟨e, left, right⟩ := grouped validAB validBC
  exact ⟨valid, valid', valid'', rfl, rfl, by decide, by decide, by decide, meet, meet', ab, bc, e,
    okAB, validAB, okBC, validBC, left, right⟩

end Curve

end RationalSpline
