/-
  RationalSpline.Proofs.Reversal
  ──────────────────────────────
  THE REVERSED CURVE.

  Reversal negates the knots and turns the control points round, so the pieces of the
  reversed curve are those of the curve with their arguments negated.  What is proved
  of the start of a curve holds of its end through this.
-/
import RationalSpline.Proofs.Pieces

namespace RationalSpline

variable {K : Type} [Field K] [LinearOrder K] {d p : Nat}

/-! ## §1. Forms and pieces. -/

theorem Sequence.getD_reverse {β : Type} {values : List β} {i : Nat} (h : i < values.length)
    (b : β) :
    values.reverse.getD i b = values.getD (values.length - 1 - i) b := by
  rw [List.getD_eq_getElem?_getD, List.getD_eq_getElem?_getD, List.getElem?_reverse h]

section Mirror

variable {V : Type} [AddCommGroup V] [Module K V]

/-- The form of the reversed piece. -/
def PolarForm.neg (f : PolarForm K V p) : PolarForm K V p where
  toFun s := f (s.map Neg.neg)
  affine s a x y hs := by
    have middle : -mix a x y = mix a (-x) (-y) := by
      simp only [mix, smul_eq_mul]
      ring
    rw [Multiset.map_cons, middle, f.affine _ _ _ _ (by simpa using hs), Multiset.map_cons,
        Multiset.map_cons]

theorem PolarForm.neg_apply (f : PolarForm K V p) (s : Multiset K) :
    f.neg s = f (s.map Neg.neg) := rfl

end Mirror

/-- The reversed spline follows the reversed forms. -/
theorem Follows.neg {U W : KnotVector K} {P : List (Point K)} {F : Pieces K d p}
    [IsStrictOrderedRing K] (h : Follows U P F) (hp : 0 < p)
    (mirror : ∀ i, 1 ≤ i → i < P.length + p → W.knot i = -U.knot (P.length + p - i)) :
    Follows W P.reverse fun t => (F (-t)).neg := by
  intro i hpi hi t low high j hj hj'
  rw [List.length_reverse] at hi
  rw [mirror i (by omega) (by omega)] at low
  rw [mirror (i + 1) (by omega) (by omega),
      show P.length + p - (i + 1) = P.length + p - 1 - i by omega] at high
  have span : P.length + p - 1 - i + 1 = P.length + p - i := by omega
  rw [Sequence.getD_reverse (by omega),
      h (P.length + p - 1 - i) (by omega) (by omega) (-t) (lt_neg_of_lt_neg high)
        (by rw [span]; exact neg_lt_of_neg_lt low) _ (by omega) (by omega),
      PolarForm.neg_apply, stretch_map]
  refine congrArg (fun s => Point.ofVec (F (-t) s)) (stretch_reverse fun r hr => ?_)
  rw [mirror _ (by omega) (by omega), neg_neg]
  exact congrArg _ (by omega)

/-! ## §2. Knots. -/

namespace KnotVector

theorem knot_invert {α : Type} [Scalar α] (U : KnotVector α) {i : Nat} (h : i < U.size) :
    U.invert.knot i = -U.knot (U.size - 1 - i) := by
  have inside : U.size - 1 - i < U.values.length := by
    show _ < U.size
    omega
  simp only [knot, invert, List.getD_eq_getElem?_getD]
  rw [List.getElem?_map, List.getElem?_reverse h,
      show U.values.length - 1 - i = U.size - 1 - i from rfl, List.getElem?_eq_getElem inside]
  rfl

/-- Indices as far from the two ends change places. -/
theorem knot_invert_opposite {α : Type} [Scalar α] (U : KnotVector α) {i j : Nat}
    (h : i + j + 1 = U.size) : U.invert.knot i = -U.knot j := by
  rw [U.knot_invert (by omega)]
  exact congrArg (fun i => -U.knot i) (by omega)

@[simp] theorem invert_invert (U : KnotVector K) : U.invert.invert = U := by
  obtain ⟨values⟩ := U
  simp [invert]

/-- Backwards or not, they are the negated knots. -/
theorem invert_perm (U : KnotVector K) : U.invert.values.Perm (U.values.map Neg.neg) :=
  (List.reverse_perm _).map _

theorem count_invert (U : KnotVector K) (u : K) : U.invert.count (-u) = U.count u := by
  simp only [count, invert, List.countP_map, List.countP_reverse]
  refine List.countP_congr fun k _ => ?_
  simp

theorem unpadded_invert (U : KnotVector K) : U.unpadded.invert = U.invert.unpadded := by
  refine congrArg KnotVector.mk ?_
  show (U.values.tail.dropLast.reverse).map Neg.neg = (U.values.reverse.map Neg.neg).tail.dropLast
  rw [← List.map_tail, ← List.map_dropLast, List.tail_reverse, List.dropLast_reverse,
      List.tail_dropLast]

section Ends

variable {U : KnotVector K} {order : Nat}

theorem isClamped_invert (two : 2 ≤ order) (size : order ≤ U.size) :
    U.invert.isClamped order .start = U.isClamped order .finish
      ∧ U.invert.isClamped order .finish = U.isClamped order .start := by
  simp only [isClamped, size_invert]
  rw [U.knot_invert_opposite (i := 0) (j := U.size - 1) (by omega),
      U.knot_invert_opposite (i := order - 2) (j := U.size + 1 - order) (by omega),
      U.knot_invert_opposite (i := U.size - 1) (j := 0) (by omega),
      U.knot_invert_opposite (i := U.size + 1 - order) (j := order - 2) (by omega)]
  exact ⟨decide_eq_decide.2 neg_inj, decide_eq_decide.2 neg_inj⟩

/-- Both ends are padded alike. -/
theorem padded_invert (two : 2 ≤ order) (size : order ≤ U.size) :
    U.invert.padded order = (U.padded order).invert := by
  obtain ⟨clamped, clamped'⟩ := isClamped_invert two size
  have first := U.knot_invert_opposite (i := 0) (j := U.size - 1) (by omega)
  have last := U.knot_invert_opposite (i := U.size - 1) (j := 0) (by omega)
  have start : U.invert.superfluous order .start = -U.superfluous order .finish := by
    rw [superfluous, superfluous, clamped, size_invert, first,
        U.knot_invert_opposite (i := 1) (j := U.size - 2) (by omega)]
    split_ifs
    · rfl
    · ring
  have finish : U.invert.superfluous order .finish = -U.superfluous order .start := by
    rw [superfluous, superfluous, clamped', size_invert, last,
        U.knot_invert_opposite (i := U.size - 2) (j := 1) (by omega)]
    split_ifs
    · rfl
    · ring
  refine congrArg KnotVector.mk ?_
  rw [start, finish]
  simp [padded, invert]

end Ends

theorem Ordered.invert [IsStrictOrderedRing K] {U : KnotVector K} (h : U.Ordered) :
    U.invert.Ordered := by
  refine List.pairwise_map.2 (List.pairwise_reverse.2 (List.Pairwise.imp ?_ h))
  exact fun hab => neg_le_neg hab

end KnotVector

/-! ## §3. Curves. -/

/-- The spline in the opposite direction. -/
def Spline.mirror (S : Spline K) : Spline K := ⟨S.degree, S.knots.invert, S.points.reverse⟩

@[simp] theorem Spline.mirror_mirror (S : Spline K) : S.mirror.mirror = S := by
  simp [mirror]

namespace Curve

@[simp] theorem invert_invert (c : Curve K) : c.invert.invert = c := by
  obtain ⟨dimension, order, points, knots⟩ := c
  cases points <;> simp [invert, ControlPoints.reverse, ControlPoints.withVectors,
    ControlPoints.vectors]

theorem vectors_invert (c : Curve K) : c.invert.points.vectors = c.points.vectors.reverse :=
  ControlPoints.vectors_withVectors _ _

theorem vectorSize_invert (c : Curve K) : c.invert.vectorSize = c.vectorSize := by
  simp only [vectorSize, isRational_invert]
  rfl

theorem Sound.spline_invert {c : Curve K} (h : c.Sound) : c.invert.spline = c.spline.mirror := by
  obtain ⟨two, enough, size, degree⟩ := h.counts
  have knots : c.knots.invert.padded c.order = (c.knots.padded c.order).invert :=
    KnotVector.padded_invert two (by omega)
  show Spline.mk _ (c.knots.invert.padded c.order) c.invert.points.vectors = _
  rw [knots, vectors_invert]
  rfl

theorem invert_withSpline (c : Curve K) (S : Spline K) :
    (c.withSpline S).invert = c.invert.withSpline S.mirror := by
  obtain ⟨dimension, order, points, knots⟩ := c
  cases points <;>
    simp [invert, withSpline, Spline.mirror, KnotVector.unpadded_invert, ControlPoints.withVectors,
      ControlPoints.reverse, ControlPoints.vectors]

/-- The padded knots as far from the two ends. -/
theorem Sound.knot_spline_invert {c : Curve K} (h : c.Sound) {i j : Nat}
    (opposite : i + j = c.pointCount + c.degree) :
    c.invert.spline.knots.knot i = -c.spline.knots.knot j := by
  have size : c.spline.knots.size = c.pointCount + c.degree + 1 := size_padded_knots h
  rw [h.spline_invert]
  exact c.spline.knots.knot_invert_opposite (by omega)

/-- The pieces of the reversed curve. -/
theorem Sound.follows_invert [IsStrictOrderedRing K] {c : Curve K} (h : c.Sound) {F : Pieces K d p}
    (hp : c.degree = p) (follows : Follows c.spline.knots c.points.vectors F) :
    Follows c.invert.spline.knots c.invert.points.vectors fun t => (F (-t)).neg := by
  have two := h.two_le_order
  have degree : c.degree = c.order - 1 := rfl
  have points : c.points.vectors.length = c.pointCount := rfl
  rw [vectors_invert]
  exact follows.neg (by omega) fun i hi hi' => h.knot_spline_invert (by omega)

theorem Sound.invert [IsStrictOrderedRing K] {c : Curve K} (h : c.Sound) : c.invert.Sound where
  two_le_order := h.two_le_order
  order_le := by
    rw [pointCount_invert]
    exact h.order_le
  knotCount_eq := by
    rw [pointCount_invert]
    exact (KnotVector.size_invert c.knots).trans h.knotCount_eq
  ordered := h.ordered.invert
  sized := by
    rw [vectors_invert, vectorSize_invert]
    exact fun x hx => h.sized x (List.mem_reverse.1 hx)

theorem Sound.domain_invert {c : Curve K} (h : c.Sound) :
    c.invert.domain = (-c.domain.2, -c.domain.1) := by
  obtain ⟨order, points, size, degree⟩ := h.counts
  have start : c.knots.invert.knot (c.order - 2) = -c.knots.knot (c.knots.size + 1 - c.order) :=
    c.knots.knot_invert_opposite (by omega)
  have finish : c.knots.invert.knot (c.knots.size + 1 - c.order) = -c.knots.knot (c.order - 2) :=
    c.knots.knot_invert_opposite (by omega)
  rw [← c.knots.size_invert] at finish
  exact Prod.ext start finish

theorem Sound.isClamped_invert {c : Curve K} (h : c.Sound) :
    c.invert.isClamped .start = c.isClamped .finish
      ∧ c.invert.isClamped .finish = c.isClamped .start := by
  obtain ⟨order, points, size, degree⟩ := h.counts
  have enough : c.order ≤ c.knots.size := by omega
  exact KnotVector.isClamped_invert order enough

/-- Reversal of both curves keeps what one has of the other. -/
theorem Keeps.invert [IsStrictOrderedRing K] {c e : Curve K} (hc : c.Sound) (he : e.Sound)
    (h : Keeps c.invert e) : Keeps c e.invert where
  dimension := h.dimension
  order := h.order
  rational := by
    rw [isRational_invert, h.rational, isRational_invert]
  domain := by
    rw [he.domain_invert, h.domain, hc.domain_invert]
    simp
  follows := by
    intro d p F hp follows
    have kept := h.follows (F := fun t => (F (-t)).neg) hp (hc.follows_invert hp follows)
    have back := he.follows_invert (h.degree.trans hp) kept
    intro i hpi hi t low high j hj hj'
    rw [back i hpi hi t low high j hj hj']
    simp [PolarForm.neg_apply]
  hull := by
    have there := h.hull
    rw [vectors_invert] at there
    rw [vectors_invert]
    exact (inHull_of_subset fun x => List.mem_reverse.1).trans
      (there.trans (inHull_of_subset fun x => List.mem_reverse.1))

end Curve

end RationalSpline
