/-
  RationalSpline.Proofs.Splicing
  ──────────────────────────────
  SPLICING TWO CURVES.

  Of two curves with full ends, the second of which starts where the first ends, the
  spliced curve has the knots of the first up to the joint and those of the second from
  the joint on, and the joint is repeated as often as the degree.  So around each span it
  has the knots and control points of one of its parts, and at the joint its value is the
  control point there.
-/
import RationalSpline.Proofs.FractionalMap
import RationalSpline.Proofs.FullEnds
import RationalSpline.Curve.Append

namespace RationalSpline

variable {K : Type} [Field K] [LinearOrder K]

namespace KnotVector

/-- Knot vectors with one beginning have the same knots there. -/
theorem knot_eq_of_append {U W : KnotVector K} {start rest rest' : List K}
    (hU : U.values = start ++ rest) (hW : W.values = start ++ rest') {i : Nat}
    (inside : i < start.length) : W.knot i = U.knot i := by
  rw [knot, knot, hU, hW, List.getD_append _ _ _ _ inside, List.getD_append _ _ _ _ inside]

/-- Knot vectors with one ending have the same knots there. -/
theorem knot_eq_of_drop {U W : KnotVector K} {m n : Nat}
    (same : W.values.drop m = U.values.drop n) (i : Nat) : W.knot (m + i) = U.knot (n + i) := by
  have entry := congrArg (fun l => l.getD i 0) same
  simpa only [knot, List.getD_eq_getElem?_getD, List.getElem?_drop] using entry

end KnotVector

namespace Point

/-- The point halfway between two points. -/
def midpoint (x y : Point K) : Point K := scale (add x y) Scalar.half

theorem midpoint_self [IsStrictOrderedRing K] (x : Point K) : midpoint x x = x := by
  refine List.ext_getElem (by simp [midpoint]) fun i _ _ => ?_
  simp only [midpoint, scale, add, List.getElem_map, List.getElem_zipWith, Scalar.half_eq]
  ring

theorem eq_of_midpoint [IsStrictOrderedRing K] {x y : Point K} (size : x.length = y.length)
    (h : midpoint x y = y) : x = y := by
  refine List.ext_getElem size fun i h₁ h₂ => ?_
  have entry := congrArg (fun z => z.getD i 0) h
  have inside : i < (midpoint x y).length := by simpa [midpoint, size] using h₂
  simp only [List.getD_eq_getElem _ _ inside, List.getD_eq_getElem _ _ h₂] at entry
  simp only [midpoint, scale, add, List.getElem_map, List.getElem_zipWith, Scalar.half_eq] at entry
  linarith

theorem weight_midpoint [IsStrictOrderedRing K] {x y : Point K} (size : x.length = y.length) :
    weight (midpoint x y) = (weight x + weight y) / 2 := by
  rw [midpoint, weight_scale, weight_add size, Scalar.half_eq]
  ring

/-- Halfway between points of one weight is halfway between their locations. -/
theorem dehomogenize_midpoint [IsStrictOrderedRing K] {x y : Point K}
    (size : x.length = y.length) (same : weight x = weight y) :
    dehomogenize (midpoint x y) = midpoint (dehomogenize x) (dehomogenize y) := by
  have weight' : weight (midpoint x y) = weight x := by
    rw [weight_midpoint size, ← same]
    ring
  refine List.ext_getElem (by simp [midpoint, size]) fun i _ _ => ?_
  simp only [dehomogenize, divide, weight', List.getElem_map, List.getElem_dropLast, ← same]
  simp only [midpoint, scale, add, List.getElem_map, List.getElem_zipWith, List.getElem_dropLast]
  ring

end Point

namespace Curve

variable {c e : Curve K}

/-! ## §1. Values around one span. -/

section Values

variable [IsStrictOrderedRing K]

/-- **Curves with the same knots and control points around a run of knots have the same value
there.**  The parameter is in the span `i` and, when the run is not empty, equal to its knots,
those behind the index `l`.  Of the control points of the span only those count that have the
whole run among their knots. -/
theorem Sound.definedVector_eq_of_run (hc : c.Sound) (he : e.Sound)
    (size : e.vectorSize = c.vectorSize) (degree : e.degree = c.degree) {i l m n : Nat} {t t' : K}
    (hi : c.degree ≤ i) (hi' : i < c.pointCount) (hm : i + m < e.pointCount)
    (few : n ≤ c.degree) (before : l ≤ i) (after : i ≤ l + n)
    (run : ∀ r, l < r → r ≤ l + n → c.spline.knots.knot r = t)
    (knots : ∀ r, l + n + 1 ≤ r + c.degree → r ≤ l + c.degree →
      e.spline.knots.knot (r + m) = c.spline.knots.knot r)
    (points : ∀ j ≤ l, l + n ≤ j + c.degree →
      e.points.vectors.getD (j + m) [] = c.points.vectors.getD j [])
    (onc : c.spline.knots.onSpan c.domain.2 t i = true)
    (one : e.spline.knots.onSpan e.domain.2 t (i + m) = true)
    (low : c.spline.knots.knot i < t') (high : t' < c.spline.knots.knot (i + 1))
    (low' : e.spline.knots.knot (i + m) < t') (high' : t' < e.spline.knots.knot (i + m + 1)) :
    e.definedVector t = c.definedVector t := by
  have two := hc.two_le_order
  have positive : c.degree = c.order - 1 := rfl
  have padded := size_padded_knots hc
  have count : c.points.vectors.length = c.pointCount := rfl
  obtain ⟨F, hF⟩ := hc.exists_follows rfl rfl
  obtain ⟨G, hG⟩ := he.exists_follows size degree
  rw [hc.definedVector_eq rfl rfl hF hi hi' onc low high,
      he.definedVector_eq size degree hG (by omega) hm one low' high']
  -- the knots up to the run lie below those behind it
  have apart : ∀ r < c.degree - n, ∀ r' < c.degree - n,
      c.spline.knots.knot (l + n + 1 - c.degree + r)
        ≠ c.spline.knots.knot (l + n + 1 - c.degree + (c.degree - n) + n + r') := fun r hr r' hr' =>
    ne_of_lt (lt_of_le_of_lt (hc.ordered_padded.knot_le (by omega) (by omega))
      (lt_of_lt_of_le (lt_trans low high) (hc.ordered_padded.knot_le (by omega) (by omega))))
  have held : stretch c.spline.knots.knot (l + n + 1 - c.degree + (c.degree - n)) n
      ≤ Multiset.replicate c.degree t := by
    rw [stretch_eq_replicate (a := t) fun r hr => run _ (by omega) (by omega)]
    exact Multiset.replicate_mono _ few
  refine congrArg Point.ofVec (PolarForm.eq_of_held (by omega) apart (fun j hj => ?_)
    (Multiset.card_replicate _ _) held)
  obtain ⟨k, hk⟩ : ∃ k, k = l + n - c.degree + j := ⟨_, rfl⟩
  have first : stretch c.spline.knots.knot (l + n + 1 - c.degree + j) c.degree
      = stretch c.spline.knots.knot (k + 1) c.degree :=
    stretch_congr fun r _ => congrArg _ (by omega)
  have second : stretch c.spline.knots.knot (k + 1) c.degree
      = stretch e.spline.knots.knot (k + m + 1) c.degree :=
    stretch_congr fun r hr => by
      rw [show k + m + 1 + r = k + 1 + r + m by omega, knots _ (by omega) (by omega)]
  refine Point.ofVec_injective ?_
  rw [first, ← hF i hi hi' t' low high k (by omega) (by omega), second,
      ← hG (i + m) (by omega) hm t' low' high' (k + m) (by omega) (by omega),
      points _ (by omega) (by omega)]

/-- **Curves with the same knots and control points around a span have the same values there.** -/
theorem Sound.definedVector_eq_of_span (hc : c.Sound) (he : e.Sound)
    (size : e.vectorSize = c.vectorSize) (degree : e.degree = c.degree) {i m : Nat} {t : K}
    (hi : c.degree ≤ i) (hi' : i < c.pointCount) (hm : i + m < e.pointCount)
    (knots : ∀ r, i + 1 ≤ r + c.degree → r ≤ i + c.degree →
      e.spline.knots.knot (r + m) = c.spline.knots.knot r)
    (points : ∀ j ≤ i, i ≤ j + c.degree →
      e.points.vectors.getD (j + m) [] = c.points.vectors.getD j [])
    (onc : c.spline.knots.onSpan c.domain.2 t i = true)
    (one : e.spline.knots.onSpan e.domain.2 t (i + m) = true) :
    e.definedVector t = c.definedVector t := by
  have two := hc.two_le_order
  have positive : c.degree = c.order - 1 := rfl
  obtain ⟨t', low, high⟩ := exists_between (KnotVector.knot_lt_of_onSpan onc)
  have low' : e.spline.knots.knot (i + m) < t' := by rwa [knots i (by omega) (by omega)]
  have high' : t' < e.spline.knots.knot (i + m + 1) := by
    rwa [show i + m + 1 = i + 1 + m by omega, knots (i + 1) (by omega) (by omega)]
  exact hc.definedVector_eq_of_run he size degree (n := 0) hi hi' hm (Nat.zero_le _) le_rfl le_rfl
    (fun r hr hr' => absurd hr (by omega)) knots points onc one low high low' high'

end Values

/-! ## §2. Splicing. -/

/-- With full ends no knot lies outside the domain. -/
theorem Ended.within (h : c.Ended) : c.Within := by
  intro k hk
  rw [h.values] at hk
  rcases List.mem_append.1 hk with hk | hk
  · rcases List.mem_append.1 hk with hk | hk
    · rw [List.eq_of_mem_replicate hk]
      exact ⟨le_refl _, h.lt.le⟩
    · exact (between_of_mem_interior hk).imp le_of_lt le_of_lt
  · rw [List.eq_of_mem_replicate hk]
    exact ⟨h.lt.le, le_refl _⟩

/-- Two curves of one shape with full ends, the second of which starts where the first ends. -/
structure Adjacent (head tail : Curve K) : Prop where
  /-- The first has full ends. -/
  first : head.Ended
  /-- So has the second. -/
  second : tail.Ended
  /-- The locations have as many coordinates. -/
  dimension : tail.dimension = head.dimension
  /-- The orders agree. -/
  order : tail.order = head.order
  /-- The vectors have one meaning. -/
  rational : tail.isRational = head.isRational
  /-- The parameters meet. -/
  meet : tail.domain.1 = head.domain.2

/-- The control point at the joint. -/
def joint (head tail : Curve K) : Point K :=
  Point.midpoint (head.points.vectors.getLastD []) (tail.points.vectors.headD [])

theorem vectorSize_splice (head tail : Curve K) :
    (splice head tail).vectorSize = head.vectorSize := by
  simp only [vectorSize, isRational, splice, ControlPoints.isRational_withVectors]
  rfl

theorem vectors_splice (head tail : Curve K) : (splice head tail).points.vectors
    = head.points.vectors.dropLast ++ joint head tail :: tail.points.vectors.tail :=
  ControlPoints.vectors_withVectors _ _

namespace Adjacent

variable {head tail : Curve K}

theorem degree (h : Adjacent head tail) : tail.degree = head.degree := by
  rw [Curve.degree, h.order, Curve.degree]

theorem vectorSize (h : Adjacent head tail) : tail.vectorSize = head.vectorSize := by
  rw [Curve.vectorSize, h.rational, h.dimension, Curve.vectorSize]

theorem pointCount_splice (h : Adjacent head tail) :
    (splice head tail).pointCount + 1 = head.pointCount + tail.pointCount := by
  have first := h.first.pointCount_eq
  have second := h.second.pointCount_eq
  have points : head.points.vectors.length = head.pointCount := rfl
  have points' : tail.points.vectors.length = tail.pointCount := rfl
  show (splice head tail).points.vectors.length + 1 = _
  rw [vectors_splice, List.length_append, List.length_dropLast, List.length_cons, List.length_tail]
  omega

theorem length_joint (h : Adjacent head tail) : (joint head tail).length = head.vectorSize := by
  have first := h.first.pointCount_eq
  have second := h.second.pointCount_eq
  have sizes : (head.points.vectors.getLastD []).length = head.vectorSize := by
    rcases List.eq_nil_or_concat' head.points.vectors with none | ⟨init, last, whole⟩
    · have : head.pointCount = 0 := congrArg List.length none
      omega
    · rw [whole, List.getLastD_concat]
      exact h.first.sized last (by rw [whole]; simp)
  have sizes' : (tail.points.vectors.headD []).length = head.vectorSize := by
    cases vectors : tail.points.vectors with
    | nil =>
        have : tail.pointCount = 0 := congrArg List.length vectors
        omega
    | cons x rest =>
        rw [← h.vectorSize]
        exact h.second.sized x (by rw [vectors]; exact List.mem_cons_self)
  rw [joint, Point.midpoint, Point.length_scale, Point.length_add, sizes, sizes', Nat.min_self]

theorem values_splice (h : Adjacent head tail) : (splice head tail).knots.values
    = List.replicate head.degree head.domain.1
      ++ (head.interior ++ List.replicate head.degree head.domain.2 ++ tail.interior)
      ++ List.replicate head.degree tail.domain.2 := by
  have rest : tail.knots.values.drop (head.order - 1)
      = tail.interior ++ List.replicate head.degree tail.domain.2 := by
    rw [h.second.values, h.degree, List.append_assoc,
        List.drop_left' (by rw [List.length_replicate]; rfl)]
  show head.knots.values ++ tail.knots.values.drop (head.order - 1) = _
  rw [rest, h.first.values]
  simp only [List.append_assoc]

theorem sound_splice (h : Adjacent head tail) : (splice head tail).Sound := by
  have count := h.pointCount_splice
  have two := h.first.two_le_order
  have enough := h.first.order_le
  have enough' := h.second.order_le
  have knots := h.first.knotCount_eq
  have knots' := h.second.knotCount_eq
  have size : head.knots.values.length = head.knotCount := rfl
  have size' : tail.knots.values.length = tail.knotCount := rfl
  have order := h.order
  refine ⟨two, ?_, ?_, ?_, ?_⟩
  · show head.order ≤ _
    omega
  · show (head.knots.values ++ tail.knots.values.drop (head.order - 1)).length
      = _ + head.order - 2
    rw [List.length_append, List.length_drop]
    omega
  · refine List.pairwise_append.2
      ⟨h.first.ordered, h.second.ordered.sublist (List.drop_sublist _ _), fun x hx y hy => ?_⟩
    have below := (h.first.within x hx).2
    have above := (h.second.within y (List.mem_of_mem_drop hy)).1
    rw [h.meet] at above
    exact le_trans below above
  · rw [vectors_splice, vectorSize_splice]
    intro x hx
    rcases List.mem_append.1 hx with hx | hx
    · exact h.first.sized x (List.dropLast_subset _ hx)
    · rcases List.mem_cons.1 hx with rfl | hx
      · exact h.length_joint
      · rw [← h.vectorSize]
        exact h.second.sized x (List.mem_of_mem_tail hx)

/-- **The spliced curve has full ends, and the joint is a full knot between them.** -/
theorem ended_splice (h : Adjacent head tail) : (splice head tail).Ended
    ∧ (splice head tail).domain = (head.domain.1, tail.domain.2)
    ∧ (splice head tail).interior
      = head.interior ++ List.replicate head.degree head.domain.2 ++ tail.interior := by
  have lt := h.first.lt
  have lt' := h.second.lt
  rw [h.meet] at lt'
  have before : ∀ x ∈ head.interior, head.domain.1 < x ∧ x < head.domain.2 :=
    fun _ hx => between_of_mem_interior hx
  have after : ∀ x ∈ tail.interior, head.domain.2 < x ∧ x < tail.domain.2 := fun _ hx =>
    h.meet ▸ between_of_mem_interior hx
  refine h.sound_splice.ended_of_values (lt_trans lt lt') h.values_splice ?_ fun u => ?_
  · intro x hx
    rcases List.mem_append.1 hx with hx | hx
    · rcases List.mem_append.1 hx with hx | hx
      · exact ⟨(before x hx).1, lt_trans (before x hx).2 lt'⟩
      · rw [List.eq_of_mem_replicate hx]
        exact ⟨lt, lt'⟩
    · exact ⟨lt_trans lt (after x hx).1, (after x hx).2⟩
  · show _ ≤ head.degree
    have few := h.first.count u
    have few' := h.second.count u
    rw [h.degree] at few'
    rw [List.count_append, List.count_append, List.count_replicate]
    -- a knot lies before the joint, at it, or behind it
    rcases lt_trichotomy u head.domain.2 with side | rfl | side
    · rw [if_neg (by simpa using side.ne'),
          List.count_eq_zero_of_not_mem fun e => lt_asymm side (after u e).1]
      omega
    · rw [if_pos (by simp), List.count_eq_zero_of_not_mem fun e => lt_irrefl _ (before _ e).2,
          List.count_eq_zero_of_not_mem fun e => lt_irrefl _ (after _ e).1]
      omega
    · rw [if_neg (by simpa using side.ne),
          List.count_eq_zero_of_not_mem fun e => lt_asymm side (before u e).2]
      omega

/-- The joint is repeated exactly as often as the degree. -/
theorem count_joint (h : Adjacent head tail) :
    (splice head tail).knots.count head.domain.2 = head.degree := by
  refine le_antisymm (h.ended_splice.1.count_le _) ?_
  rw [KnotVector.count_eq_list_count, h.values_splice, List.count_append, List.count_append,
      List.count_append, List.count_append, List.count_replicate_self]
  omega

/-! ## §3. Values of the parts. -/

/-- Up to the joint the padded knots are those of the head. -/
theorem knot_head (h : Adjacent head tail) {r : Nat} (hr : r < head.pointCount + head.degree) :
    (splice head tail).spline.knots.knot r = head.spline.knots.knot r := by
  obtain ⟨ended, domain, interior⟩ := h.ended_splice
  have whole := ended.values_padded
  have part := h.first.values_padded
  have count := h.first.pointCount_eq
  have degree : (splice head tail).degree = head.degree := rfl
  rw [domain, interior, degree, ← List.append_assoc, ← List.append_assoc, List.append_assoc]
      at whole
  rw [List.replicate_succ' (a := head.domain.2), ← List.append_assoc] at part
  refine KnotVector.knot_eq_of_append part whole ?_
  simp only [List.length_append, List.length_replicate]
  omega

/-- From the joint on they are those of the tail. -/
theorem knot_tail (h : Adjacent head tail) (r : Nat) :
    (splice head tail).spline.knots.knot (head.pointCount + r)
      = tail.spline.knots.knot (1 + r) := by
  obtain ⟨ended, domain, interior⟩ := h.ended_splice
  have whole := ended.values_padded
  have part := h.second.values_padded
  have count := h.first.pointCount_eq
  have degree : (splice head tail).degree = head.degree := rfl
  rw [domain, interior, degree] at whole
  refine KnotVector.knot_eq_of_drop ?_ r
  have start : head.pointCount
      = (List.replicate (head.degree + 1) head.domain.1 ++ head.interior).length := by
    rw [List.length_append, List.length_replicate]
    omega
  rw [whole, part, h.meet, h.degree, List.replicate_succ (n := head.degree) (a := head.domain.2),
      start]
  simp only [List.append_assoc, List.drop_append]
  simp

theorem getD_head (_ : Adjacent head tail) {j : Nat} (hj : j + 1 < head.pointCount) :
    (splice head tail).points.vectors.getD j [] = head.points.vectors.getD j [] := by
  have points : head.points.vectors.length = head.pointCount := rfl
  have inside : j < head.points.vectors.dropLast.length := by
    rw [List.length_dropLast]
    omega
  rw [vectors_splice, List.getD_append _ _ _ _ inside, List.getD_eq_getElem _ _ inside,
      List.getElem_dropLast, List.getD_eq_getElem _ _ (by omega)]

theorem getD_tail (h : Adjacent head tail) (j : Nat) :
    (splice head tail).points.vectors.getD (head.pointCount + j) []
      = tail.points.vectors.getD (1 + j) [] := by
  have count := h.first.pointCount_eq
  have points : head.points.vectors.length = head.pointCount := rfl
  have before : head.points.vectors.dropLast.length = head.pointCount - 1 := by
    rw [List.length_dropLast, points]
  rw [vectors_splice, List.getD_append_right _ _ _ _ (by omega), before,
      show head.pointCount + j - (head.pointCount - 1) = j + 1 by omega, List.getD_cons_succ]
  simp only [List.getD_eq_getElem?_getD, List.getElem?_tail, Nat.add_comm 1 j]

theorem getD_joint (_ : Adjacent head tail) :
    (splice head tail).points.vectors.getD (head.pointCount - 1) [] = joint head tail := by
  have points : head.points.vectors.length = head.pointCount := rfl
  have before : head.points.vectors.dropLast.length = head.pointCount - 1 := by
    rw [List.length_dropLast, points]
  rw [vectors_splice, List.getD_append_right _ _ _ _ before.le, before, Nat.sub_self,
      List.getD_cons_zero]

/-- The joint lies halfway between the outermost control points. -/
theorem joint_eq (_ : Adjacent head tail) : joint head tail
    = Point.midpoint (head.points.vectors.getD (head.pointCount - 1) [])
        (tail.points.vectors.getD 0 []) := by
  have last : head.points.vectors.getLastD []
      = head.points.vectors.getD (head.pointCount - 1) [] := by
    rw [List.getLastD_eq_getLast?, List.getLast?_eq_getElem?, List.getD_eq_getElem?_getD]
    rfl
  have first : tail.points.vectors.headD [] = tail.points.vectors.getD 0 [] := by
    cases tail.points.vectors <;> rfl
  rw [joint, last, first]

theorem length_ends (h : Adjacent head tail) :
    (head.points.vectors.getD (head.pointCount - 1) []).length
      = (tail.points.vectors.getD 0 []).length := by
  have count := h.first.pointCount_eq
  have count' := h.second.pointCount_eq
  have inside : head.pointCount - 1 < head.points.vectors.length := by
    show _ < head.pointCount
    omega
  have inside' : 0 < tail.points.vectors.length := by
    show 0 < tail.pointCount
    omega
  rw [List.getD_eq_getElem _ _ inside, List.getD_eq_getElem _ _ inside',
      h.first.sized _ (List.getElem_mem inside), h.second.sized _ (List.getElem_mem inside'),
      h.vectorSize]

variable [IsStrictOrderedRing K]

/-- **At the joint the value is the control point there.** -/
theorem definedVector_joint (h : Adjacent head tail) :
    (splice head tail).definedVector head.domain.2 = joint head tail := by
  obtain ⟨ended, domain, -⟩ := h.ended_splice
  have count := h.first.pointCount_eq
  have count' := h.second.pointCount_eq
  have total := h.pointCount_splice
  have positive := h.first.degree_pos
  have lt := h.second.lt
  rw [h.meet] at lt
  have degree : (splice head tail).degree = head.degree := rfl
  have degree' := h.degree
  have size := size_padded_knots h.first.toSound
  have size' := size_padded_knots h.second.toSound
  have points' : tail.points.vectors.length = tail.pointCount := rfl
  have copies : ∀ r < head.degree, (splice head tail).spline.knots.knot (head.pointCount + r)
      = head.domain.2 := fun r hr => by
    rw [h.knot_head (by omega)]
    exact h.first.clamped.knot_finish size hr.le
  have next := h.second.clamped.first_lt _
    (tail.spline.knots.knot_mem_drop (i := tail.degree + 1) (by omega))
  rw [h.meet, degree', Nat.add_comm, ← h.knot_tail] at next
  rw [← h.getD_joint]
  refine ended.toSound.definedVector_of_full (i := head.pointCount + head.degree - 1)
    (by omega) (by omega) (KnotVector.onSpan_iff.2 (Or.inl ⟨?_, ?_, ?_⟩)) (by omega) (by omega)
    fun r hr => ?_
  · rw [Nat.add_sub_assoc positive]
    exact (copies _ (by omega)).le
  · rwa [Nat.sub_add_cancel (by omega)]
  · rwa [domain]
  · rw [Nat.sub_add_cancel (by omega)]
    exact copies r hr

/-- **Before the joint the values are those of the head, if it ends in the joint.** -/
theorem definedVector_head (h : Adjacent head tail)
    (closed : joint head tail = head.points.vectors.getD (head.pointCount - 1) []) {t : K}
    (h₀ : head.domain.1 ≤ t) (h₁ : t ≤ head.domain.2) :
    (splice head tail).definedVector t = head.definedVector t := by
  obtain ⟨ended, domain, -⟩ := h.ended_splice
  have lt := h.second.lt
  rw [h.meet] at lt
  rcases eq_or_lt_of_le h₁ with rfl | before
  · rw [h.definedVector_joint, closed, h.first.definedVector_finish]
  have count' := h.second.pointCount_eq
  have total := h.pointCount_splice
  have positive := h.first.degree_pos
  obtain ⟨i, low, high, on⟩ := h.first.toSound.exists_onSpan h.first.lt h₀ h₁
  refine h.first.toSound.definedVector_eq_of_span ended.toSound (vectorSize_splice head tail)
    rfl (m := 0) low high (by omega) (fun r _ hr => h.knot_head (by omega)) (fun j hj _ => ?_) on ?_
  · rcases Nat.lt_or_ge (j + 1) head.pointCount with inner | last
    · exact h.getD_head inner
    · obtain rfl : j = head.pointCount - 1 := by omega
      rw [Nat.add_zero, h.getD_joint, closed]
  · rcases KnotVector.onSpan_iff.1 on with ⟨start, finish, -⟩ | ⟨-, -, last⟩
    · refine KnotVector.onSpan_iff.2 (Or.inl ⟨?_, ?_, ?_⟩)
      · rwa [Nat.add_zero, h.knot_head (by omega)]
      · rwa [Nat.add_zero, h.knot_head (by omega)]
      · rw [domain]
        exact lt_trans before lt
    · exact absurd last before.ne

/-- **From the joint on they are those of the tail, if it starts in the joint.** -/
theorem definedVector_tail (h : Adjacent head tail)
    (closed : joint head tail = tail.points.vectors.getD 0 []) {t : K}
    (h₀ : tail.domain.1 ≤ t) (h₁ : t ≤ tail.domain.2) :
    (splice head tail).definedVector t = tail.definedVector t := by
  obtain ⟨ended, domain, -⟩ := h.ended_splice
  have count := h.first.pointCount_eq
  have total := h.pointCount_splice
  have positive := h.first.degree_pos
  have degree := h.degree
  have finish : (splice head tail).domain.2 = tail.domain.2 := by rw [domain]
  obtain ⟨i, low, high, on⟩ := h.second.toSound.exists_onSpan h.second.lt h₀ h₁
  have knots : ∀ r, 1 ≤ r → (splice head tail).spline.knots.knot (r + (head.pointCount - 1))
      = tail.spline.knots.knot r := fun r hr => by
    have same := h.knot_tail (r - 1)
    rwa [show head.pointCount + (r - 1) = r + (head.pointCount - 1) by omega,
         Nat.add_sub_cancel' hr] at same
  refine h.second.toSound.definedVector_eq_of_span ended.toSound
    ((vectorSize_splice head tail).trans h.vectorSize.symm) h.degree.symm
    (m := head.pointCount - 1) low high (by omega) (fun r hr _ => knots r (by omega))
    (fun j hj _ => ?_) on ?_
  · cases j with
    | zero => rw [Nat.zero_add, h.getD_joint, closed]
    | succ j =>
        have same := h.getD_tail j
        rwa [show head.pointCount + j = j + 1 + (head.pointCount - 1) by omega,
             Nat.add_comm 1 j] at same
  · rw [finish]
    refine KnotVector.onSpan_iff.2 ?_
    rw [show i + (head.pointCount - 1) + 1 = i + 1 + (head.pointCount - 1) by omega,
        knots i (by omega), knots (i + 1) (by omega)]
    exact KnotVector.onSpan_iff.1 on

/-- The weights agree at the joint. -/
def Balanced (head tail : Curve K) : Prop :=
  head.isRational = true →
    Point.weight (head.points.vectors.getD (head.pointCount - 1) [])
      = Point.weight (tail.points.vectors.getD 0 [])

/-- At the joint the spliced curve is halfway between its parts. -/
theorem definedAt_joint (h : Adjacent head tail) (balanced : Balanced head tail) :
    (splice head tail).definedAt head.domain.2
      = Point.midpoint (head.definedAt head.domain.2) (tail.definedAt tail.domain.1) := by
  have rational : (splice head tail).isRational = head.isRational :=
    ControlPoints.isRational_withVectors _ _
  rw [definedAt, definedAt, definedAt, rational, h.rational, h.definedVector_joint,
      h.first.definedVector_finish, h.second.definedVector_start, h.joint_eq]
  split
  · next has => exact Point.dehomogenize_midpoint h.length_ends (balanced has)
  · rfl

/-- Where the parts meet, the joint is the end of the head and the start of the tail. -/
theorem joint_eq_of_closed (h : Adjacent head tail) (balanced : Balanced head tail)
    (positive : head.points.Positive)
    (closed : head.definedAt head.domain.2 = tail.definedAt tail.domain.1) :
    joint head tail = head.points.vectors.getD (head.pointCount - 1) []
      ∧ joint head tail = tail.points.vectors.getD 0 [] := by
  have same : head.points.vectors.getD (head.pointCount - 1) []
      = tail.points.vectors.getD 0 [] := by
    rw [definedAt, definedAt, h.rational, h.first.definedVector_finish,
        h.second.definedVector_start] at closed
    split at closed
    · next has =>
        have inside : head.pointCount - 1 < head.points.vectors.length := by
          have := h.first.pointCount_eq
          show _ < head.pointCount
          omega
        refine Point.eq_of_dehomogenize (balanced has) (ne_of_gt ?_) closed
        rw [List.getD_eq_getElem _ _ inside]
        exact positive has _ (List.getElem_mem inside)
    · exact closed
  rw [h.joint_eq, same, Point.midpoint_self]
  exact ⟨rfl, rfl⟩

/-- Positive weights of the parts are positive in the spliced curve. -/
theorem positive_splice (h : Adjacent head tail) (positive : head.points.Positive)
    (positive' : tail.points.Positive) : (splice head tail).points.Positive := by
  refine ControlPoints.positive_withVectors fun rational x hx => ?_
  have count := h.first.pointCount_eq
  have count' := h.second.pointCount_eq
  have has : tail.points.isRational = true := h.rational.trans rational
  rcases List.mem_append.1 hx with hx | hx
  · exact positive rational x (List.dropLast_subset _ hx)
  · rcases List.mem_cons.1 hx with rfl | hx
    · show 0 < Point.weight (joint head tail)
      have inside : head.pointCount - 1 < head.points.vectors.length := by
        show _ < head.pointCount
        omega
      have inside' : 0 < tail.points.vectors.length := by
        show 0 < tail.pointCount
        omega
      have first := positive rational _ (List.getElem_mem inside)
      have second := positive' has _ (List.getElem_mem inside')
      rw [h.joint_eq, Point.weight_midpoint h.length_ends, List.getD_eq_getElem _ _ inside,
          List.getD_eq_getElem _ _ inside']
      linarith
    · exact positive' has x (List.mem_of_mem_tail hx)

end Adjacent

end Curve

end RationalSpline
