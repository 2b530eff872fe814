/-
  RationalSpline.Proofs.Evaluation
  ────────────────────────────────
  THE POINT AT A PARAMETER.

  The triangular scheme weighs the control points that act on a span so that their sum
  is the value of its form, whether the parameter lies in the span or not.  Whatever
  span the search picks is not empty, so a point is always the value of one piece.

  The search takes the last span for parameters within the spacing of the numbers from
  the end of the domain, and the first within the same distance from the start.
  Evaluation agrees with the definition exactly where that tolerance leaves a parameter
  in its own span (`Curve.Resolves`): a span at an end that is shorter than the spacing
  is continued over its neighbours.
-/
import RationalSpline.Proofs.ClosedSpans
import RationalSpline.Proofs.RaisedHull
import RationalSpline.Curve.Evaluation

namespace RationalSpline

variable {K : Type} [Field K] [LinearOrder K]

/-! ## §1. The triangular scheme. -/

namespace KnotVector

variable {V : Type} [AddCommGroup V] [Module K V] {U : KnotVector K} {i p : Nat} {u : K}

/-- A raised row weighs vectors as the row weighs the combinations of two neighbours. -/
theorem sum_raiseRow (U : KnotVector K) (i : Nat) (u : K) (j : Nat) (saved : K) (r : Nat)
    {row : List K} {n : Nat} (length : row.length = n) (v : Nat → V) :
    ∑ k ∈ Finset.range (n + 1), (U.raiseRow i u j saved r row).getD k 0 • v k
      = saved • v 0 + ∑ k ∈ Finset.range n, row.getD k 0
          • ((U.above i u (r + k + 1) / U.support i u j (r + k)) • v k
            + (U.below i u (j - (r + k)) / U.support i u j (r + k)) • v (k + 1)) := by
  induction row generalizing saved r v n with
  | nil =>
      obtain rfl : 0 = n := length
      simp [raiseRow]
  | cons b bs ih =>
      obtain rfl : bs.length + 1 = n := length
      have rest := ih (U.below i u (j - r) * (b / U.support i u j r)) (r + 1) rfl
        fun k => v (k + 1)
      have shift : ∀ k, r + 1 + k = r + (k + 1) := fun k => by omega
      simp only [shift, zero_add] at rest
      rw [raiseRow, Finset.sum_range_succ',
          Finset.sum_range_succ' (fun k => (b :: bs).getD k 0 • _)]
      simp only [List.getD_cons_succ, List.getD_cons_zero, add_zero]
      rw [rest]
      module

/-- **The scheme gives the value of the form at equal arguments.** -/
theorem sum_basisRow (hp : p ≤ i)
    (apart : ∀ r ≤ i, ∀ s, i < s → s ≤ i + p → U.knot r ≠ U.knot s) (f : PolarForm K V p) :
    ∑ k ∈ Finset.range (p + 1),
        (U.basisRow i u p).getD k 0 • f (stretch U.knot (i - p + k + 1) p)
      = f (Multiset.replicate p u) := by
  induction p with
  | zero => simp [basisRow]
  | succ p ih =>
      have held := ih (by omega) (fun r hr s hs hs' => apart r hr s hs (by omega))
        (f.hold {u} (by simp))
      simp only [PolarForm.hold_apply, Multiset.singleton_add] at held
      rw [Multiset.replicate_succ, ← held, basisRow,
          sum_raiseRow U i u (p + 1) 0 0 (U.length_basisRow i u p), zero_smul, zero_add]
      refine Finset.sum_congr rfl fun k hk => ?_
      have hk' : k ≤ p := Nat.lt_succ_iff.1 (Finset.mem_range.1 hk)
      -- the two neighbours hold the knots before and behind one stretch
      have ends : U.knot (i - p + k) ≠ U.knot (i + k + 1) :=
        apart _ (by omega) _ (by omega) (by omega)
      have width : U.knot (i + k + 1) - U.knot (i - p + k) ≠ 0 := sub_ne_zero.2 ends.symm
      have above : U.above i u (0 + k + 1) = U.knot (i + k + 1) - u := by
        rw [KnotVector.above, zero_add, add_assoc]
      have below : U.below i u (p + 1 - (0 + k)) = u - U.knot (i - p + k) := by
        rw [KnotVector.below, show i + 1 - (p + 1 - (0 + k)) = i - p + k by omega]
      have support : U.support i u (p + 1) (0 + k)
          = U.knot (i + k + 1) - U.knot (i - p + k) := by
        rw [KnotVector.support, above, below]
        ring
      have share : (U.knot (i + k + 1) - u) / (U.knot (i + k + 1) - U.knot (i - p + k))
          = 1 - (u - U.knot (i - p + k)) / (U.knot (i + k + 1) - U.knot (i - p + k)) := by
        field_simp
        ring
      have low : stretch U.knot (i - (p + 1) + k + 1) (p + 1)
          = U.knot (i - p + k) ::ₘ stretch U.knot (i - p + k + 1) p := by
        rw [show i - (p + 1) + k + 1 = i - p + k by omega, stretch_succ]
      have high : stretch U.knot (i - (p + 1) + (k + 1) + 1) (p + 1)
          = U.knot (i + k + 1) ::ₘ stretch U.knot (i - p + k + 1) p := by
        rw [show i - (p + 1) + (k + 1) + 1 = i - p + k + 1 by omega, stretch_succ_right,
            show i - p + k + 1 + p = i + k + 1 by omega]
      have card : (stretch U.knot (i - p + k + 1) p).card + 1 = p + 1 := by simp
      rw [above, below, support, share, low, high, f.between card ends.symm u, mix]

/-! ## §2. The span search. -/

/-- **Bisection ends on the span of the parameter**, or right below its upper bound. -/
theorem bisect_spec (U : KnotVector K) (u : K) {low high : Nat} (lt : low < high)
    (le : U.knot low ≤ u) :
    low ≤ U.bisect u low high ∧ U.bisect u low high < high
      ∧ U.knot (U.bisect u low high) ≤ u
      ∧ (u < U.knot (U.bisect u low high + 1) ∨ U.bisect u low high + 1 = high) := by
  fun_induction U.bisect u low high with
  | case1 low high middle below still =>
      -- a midpoint that stands still is the lower bound
      have same : middle = low := by omega
      exact absurd (same ▸ below) (not_lt.2 le)
  | case2 low high middle below moves ih =>
      have inside : low < middle := by
        by_contra out
        have same : middle = low := by omega
        exact absurd (same ▸ below) (not_lt.2 le)
      obtain ⟨first, last, start, finish⟩ := ih inside le
      refine ⟨first, by omega, start, .inl ?_⟩
      rcases finish with finish | same
      · exact finish
      · rwa [same]
  | case3 low high middle below beyond still =>
      exact ⟨by omega, by omega, not_lt.1 below, .inr (by omega)⟩
  | case4 low high middle below beyond moves ih =>
      obtain ⟨first, last, start, finish⟩ := ih (by omega) (not_lt.1 below)
      exact ⟨by omega, last, start, finish⟩
  | case5 low high middle below beyond =>
      exact ⟨by omega, by omega, not_lt.1 below, .inl (not_le.1 beyond)⟩

end KnotVector

namespace Curve

variable [IsStrictOrderedRing K] {c : Curve K} {d p : Nat} {t : K}

section Search

variable [Precision K]

/-- Within the tolerance of the span search, a parameter near an end of the domain lies in
the span at that end. -/
def Resolves (c : Curve K) (t : K) : Prop :=
  if c.domain.2 - Precision.epsilon < t then c.knots.knot (c.pointCount - 2) ≤ t
  else t < c.domain.1 + Precision.epsilon → t ≤ c.knots.knot (c.order - 1)

instance (c : Curve K) (t : K) : Decidable (c.Resolves t) :=
  inferInstanceAs (Decidable (if c.domain.2 - Precision.epsilon < t then _ else _ → _))

omit [IsStrictOrderedRing K] [Precision K] in
/-- The span at the start, and that at the end, on padded knots. -/
theorem Regular.end_spans (h : c.Regular) :
    c.spline.knots.knot (c.degree + 1) = c.knots.knot (c.order - 1)
      ∧ c.spline.knots.knot (c.pointCount - 1) = c.knots.knot (c.pointCount - 2)
      ∧ c.spline.knots.knot c.degree < c.spline.knots.knot (c.degree + 1)
      ∧ c.spline.knots.knot (c.pointCount - 1) < c.spline.knots.knot c.pointCount := by
  obtain ⟨two, enough, size, degree⟩ := h.counts
  have first : c.spline.knots.knot (c.degree + 1) = c.knots.knot (c.order - 1) := by
    rw [degree]
    exact KnotVector.knot_padded _ _ (by omega)
  have last : c.spline.knots.knot (c.pointCount - 1) = c.knots.knot (c.pointCount - 2) := by
    rw [show c.pointCount - 1 = c.pointCount - 2 + 1 by omega]
    exact KnotVector.knot_padded _ _ (by omega)
  refine ⟨first, last, ?_, ?_⟩
  · rw [first, ← h.toSound.domain_start]
    exact h.first_span
  · rw [last, show c.pointCount = c.pointCount - 1 + 1 by omega]
    exact lt_of_lt_of_eq h.last_span (KnotVector.knot_padded _ _ (by omega)).symm

omit [IsStrictOrderedRing K] in
/-- The span that is picked, with the ends of the domain for those of the search. -/
theorem Sound.spanAt_eq (h : c.Sound) (t : K) :
    c.spline.spanAt t
      = if c.domain.2 - Precision.epsilon < t then c.pointCount - 1
        else if t < c.domain.1 + Precision.epsilon then c.degree
        else c.spline.knots.bisect t c.degree c.pointCount := by
  have two := h.two_le_order
  have enough := h.order_le
  have whole : c.pointCount - 1 + 1 = c.pointCount := by omega
  have points : c.spline.points.length = c.pointCount := rfl
  rw [Spline.spanAt, KnotVector.span, points, whole, ← h.domain_finish]
  show (if _ then _ else if t < c.spline.knots.knot c.degree + _ then _ else _) = _
  rw [← h.domain_start]
  rfl

/-- **Whatever span is picked, it is not empty.**  It is the last one for parameters within the
spacing from the end, else the first within the spacing from the start, else one that holds
the parameter. -/
theorem Regular.spanAt_spec (h : c.Regular) [Precision.Exact K] (t : K) :
    c.degree ≤ c.spline.spanAt t ∧ c.spline.spanAt t < c.pointCount
      ∧ c.spline.knots.knot (c.spline.spanAt t) < c.spline.knots.knot (c.spline.spanAt t + 1)
      ∧ (if c.domain.2 - Precision.epsilon < t then c.spline.spanAt t = c.pointCount - 1
        else if t < c.domain.1 + Precision.epsilon then c.spline.spanAt t = c.degree
        else c.spline.knots.knot (c.spline.spanAt t) ≤ t
          ∧ t ≤ c.spline.knots.knot (c.spline.spanAt t + 1)) := by
  obtain ⟨two, enough, size, degree⟩ := h.counts
  have eps : (0 : K) ≤ Precision.epsilon := Precision.Exact.epsilon_nonneg
  obtain ⟨-, -, first, last⟩ := h.end_spans
  have whole : c.pointCount - 1 + 1 = c.pointCount := by omega
  rw [h.toSound.spanAt_eq]
  split_ifs with late early
  · rw [whole]
    exact ⟨by omega, by omega, last, rfl⟩
  · exact ⟨by omega, by omega, first, rfl⟩
  · have start : c.spline.knots.knot c.degree ≤ t := by
      rw [← h.toSound.domain_start]
      linarith [not_lt.1 early]
    obtain ⟨low, high, below, above⟩ :=
      c.spline.knots.bisect_spec t (show c.degree < c.pointCount by omega) start
    rcases above with above | same
    · exact ⟨low, high, lt_of_le_of_lt below above, below, above.le⟩
    · have index : c.spline.knots.bisect t c.degree c.pointCount = c.pointCount - 1 := by omega
      rw [index, whole]
      refine ⟨by omega, by omega, last, index ▸ below, ?_⟩
      rw [← h.toSound.domain_finish]
      linarith [not_lt.1 late]

/-! ## §3. Values. -/

omit [IsStrictOrderedRing K] [Precision K] in
/-- A combination of a family of vectors is a sum over its indices. -/
theorem combine_range {row : List K} {n : Nat} (length : row.length = n) (v : Nat → Fin d → K) :
    Point.combine d row ((List.range n).map fun k => Point.ofVec (v k))
      = Point.ofVec (∑ k ∈ Finset.range n, row.getD k 0 • v k) := by
  have family : ((List.range n).map fun k => Point.ofVec (v k))
      = ((List.range n).map v).map Point.ofVec := by
    rw [List.map_map]
    rfl
  have whole : List.zipWith (fun b w => b • w) row ((List.range n).map v)
      = (List.range n).map fun k => row.getD k 0 • v k := by
    refine List.ext_getElem (by simp [length]) fun k h₁ h₂ => ?_
    have inside : k < row.length := by simpa [length] using h₂
    simp [inside]
  rw [family, Point.combine_ofVec, whole]
  rfl

omit [IsStrictOrderedRing K] [Precision K] in
/-- The control points that act on a span. -/
theorem window_eq (c : Curve K) {i : Nat} (hi : c.degree ≤ i) (hi' : i < c.pointCount) :
    c.spline.window i
      = (List.range (c.degree + 1)).map fun k =>
        c.points.vectors.getD (i - c.degree + k) [] := by
  have points : c.points.vectors.length = c.pointCount := rfl
  have length : (c.spline.window i).length = c.degree + 1 := by
    show ((c.points.vectors.drop (i - c.degree)).take (c.degree + 1)).length = _
    rw [List.length_take, List.length_drop]
    omega
  refine List.ext_getElem (by simpa using length) fun k h₁ h₂ => ?_
  rw [List.getElem_map, List.getElem_range, List.getD_eq_getElem _ _ (by omega)]
  exact List.getElem_take.trans List.getElem_drop

omit [Precision K] in
/-- No knot before a span that is not empty is one behind it. -/
theorem Regular.apart_of_lt (h : c.Regular) {i : Nat} (hi' : i < c.pointCount)
    (span : c.spline.knots.knot i < c.spline.knots.knot (i + 1)) :
    ∀ r ≤ i, ∀ s, i < s → s ≤ i + c.degree → c.spline.knots.knot r ≠ c.spline.knots.knot s := by
  have ordered := h.toSound.ordered_padded
  have size : c.spline.knots.size = c.pointCount + c.degree + 1 := size_padded_knots h.toSound
  intro r hr s hs hs'
  exact ne_of_lt (lt_of_le_of_lt (ordered.knot_le hr (by omega))
    (lt_of_lt_of_le span (ordered.knot_le hs (by omega))))

omit [IsStrictOrderedRing K] [Precision K] in
/-- **The control points that act on a span are those of its piece.** -/
theorem window_eq_form {F : Pieces K d c.degree}
    (follows : Follows c.spline.knots c.points.vectors F) {i : Nat} (hi : c.degree ≤ i)
    (hi' : i < c.pointCount) {t' : K} (low : c.spline.knots.knot i < t')
    (high : t' < c.spline.knots.knot (i + 1)) :
    c.spline.window i = (List.range (c.degree + 1)).map fun k =>
      Point.ofVec (F t' (stretch c.spline.knots.knot (i - c.degree + k + 1) c.degree)) := by
  rw [c.window_eq hi hi']
  refine List.map_congr_left fun k hk => ?_
  have inside := List.mem_range.1 hk
  exact follows _ hi hi' t' low high _ (by omega) (by omega)

/-- **At every parameter, in the domain or not, the value is that of the piece on the span that
is picked.** -/
theorem Regular.vectorAt_eq [Precision.Exact K] (h : c.Regular) (hd : c.vectorSize = d)
    (hp : c.degree = p) {F : Pieces K d p} (follows : Follows c.spline.knots c.points.vectors F)
    {t' : K} (low : c.spline.knots.knot (c.spline.spanAt t) < t')
    (high : t' < c.spline.knots.knot (c.spline.spanAt t + 1)) :
    c.vectorAt t = Point.ofVec (F t' (Multiset.replicate p t)) := by
  subst hp
  obtain ⟨hi, hi', -, -⟩ := h.spanAt_spec t
  show Point.combine c.vectorSize (c.spline.knots.basisRow (c.spline.spanAt t) t c.degree)
    (c.spline.window (c.spline.spanAt t)) = _
  rw [hd, window_eq_form follows hi hi' low high,
      combine_range (KnotVector.length_basisRow _ _ _ _),
      KnotVector.sum_basisRow hi (h.apart_of_lt hi' (lt_trans low high))]

/-! ## §4. Evaluation and definition. -/

omit [Precision K] in
/-- **The weight of a rational curve is positive at every parameter of its domain.** -/
theorem Regular.weight_definedVector_pos (h : c.Regular) (rational : c.isRational = true)
    (h₀ : c.domain.1 ≤ t) (h₁ : t ≤ c.domain.2) : 0 < Point.weight (c.definedVector t) := by
  obtain ⟨F, follows⟩ := h.toSound.exists_follows rfl rfl
  obtain ⟨i, hi, hi', on⟩ := h.toSound.exists_onSpan h.domain_lt h₀ h₁
  obtain ⟨t', low, high⟩ := exists_between (KnotVector.knot_lt_of_onSpan on)
  have within := KnotVector.within_of_onSpan on
  have blend : ∀ (a : K) (x y : Point K), 0 ≤ a → a ≤ 1 →
      x.length = c.vectorSize ∧ 0 < Point.weight x →
      y.length = c.vectorSize ∧ 0 < Point.weight y →
      (Point.blend a x y).length = c.vectorSize ∧ 0 < Point.weight (Point.blend a x y) := by
    rintro a x y h₀ h₁ ⟨hx, wx⟩ ⟨hy, wy⟩
    refine ⟨by rw [Point.length_blend, hx, hy, min_self], ?_⟩
    rw [Point.weight_blend a (hx.trans hy.symm)]
    rcases lt_or_eq_of_le h₁ with lt | rfl
    · have := mul_nonneg wy.le h₀
      have := mul_pos wx (sub_pos.2 lt)
      linarith
    · linarith
  have hull := follows.mem_of_stretch h.toSound.ordered_padded (size_padded_knots h.toSound) blend
    (fun x hx => ⟨h.sized x hx, h.positive rational x hx⟩) hi hi' low high
    (Y := Multiset.replicate c.degree t) (n := 0) (by simp) (le_refl i) (le_refl i) fun y hy => by
      rw [Multiset.eq_of_mem_replicate hy]
      exact within
  rw [h.toSound.definedVector_eq rfl rfl follows hi hi' on low high]
  simpa using hull.2

/-- **Where the tolerance of the search leaves a parameter in its span, evaluation gives the
value of the definition.** -/
theorem Regular.vectorAt_eq_definedVector [Precision.Exact K] (h : c.Regular)
    (h₀ : c.domain.1 ≤ t) (h₁ : t ≤ c.domain.2) (resolves : c.Resolves t) :
    c.vectorAt t = c.definedVector t := by
  obtain ⟨F, follows⟩ := h.toSound.exists_follows rfl rfl
  obtain ⟨hi, hi', span, pick⟩ := h.spanAt_spec t
  obtain ⟨first, last, -, -⟩ := h.end_spans
  obtain ⟨t', low, high⟩ := exists_between span
  rw [h.vectorAt_eq rfl rfl follows low high]
  have within : c.spline.knots.knot (c.spline.spanAt t) ≤ t
      ∧ t ≤ c.spline.knots.knot (c.spline.spanAt t + 1) := by
    unfold Resolves at resolves
    split_ifs at pick resolves with late early
    · have whole : c.pointCount - 1 + 1 = c.pointCount := by omega
      rw [pick, whole, last, ← h.toSound.domain_finish]
      exact ⟨resolves, h₁⟩
    · rw [pick, first, ← h.toSound.domain_start]
      exact ⟨h₀, resolves early⟩
    · exact pick
  exact (h.definedVector_on rfl rfl follows hi hi' low high within.1 within.2).symm

end Search

end Curve

/-! ## §5. A piece that is continued over its neighbours. -/

namespace PolarForm

variable {V : Type} [AddCommGroup V] [Module K V] {p : Nat} {a : K} {v w : V}

/-- The form of the piece `v + (t - a) ^ p • w`. -/
def power (a : K) (v w : V) : PolarForm K V p where
  toFun s := v + (s.map (· - a)).prod • w
  affine s b x y _ := by
    simp only [Multiset.map_cons, Multiset.prod_cons, mix, smul_eq_mul]
    module

theorem power_apply (s : Multiset K) :
    (power a v w : PolarForm K V p) s = v + (s.map (· - a)).prod • w := rfl

theorem power_of_mem {s : Multiset K} (member : a ∈ s) :
    (power a v w : PolarForm K V p) s = v := by
  have zero : (s.map (· - a)).prod = 0 :=
    Multiset.prod_eq_zero (Multiset.mem_map.2 ⟨a, member, sub_self a⟩)
  rw [power_apply, zero, zero_smul, add_zero]

end PolarForm

namespace Curve

variable [IsStrictOrderedRing K] {c : Curve K} {t : K}

/-- The points of a line at rest, but for one control point: that of the piece which is a power
of the distance from `a`. -/
def peak (c : Curve K) (m : Nat) (a : K) : Curve K :=
  { c with points := c.points.withVectors ((List.range c.pointCount).map fun j => Point.ofVec
      (if j = m then
        (PolarForm.power a c.lineOrigin c.lineDirection : PolarForm K _ c.degree)
          (stretch c.spline.knots.knot (j + 1) c.degree)
      else c.lineOrigin)) }

section Peak

omit [IsStrictOrderedRing K]

variable {m : Nat} {a : K}

theorem alike_peak : Alike c (c.peak m a) :=
  ⟨rfl, rfl, ControlPoints.isRational_withVectors _ _, rfl⟩

theorem getD_peak {j : Nat} (hj : j < c.pointCount) :
    (c.peak m a).points.vectors.getD j [] = Point.ofVec
      (if j = m then
        (PolarForm.power a c.lineOrigin c.lineDirection : PolarForm K _ c.degree)
          (stretch c.spline.knots.knot (j + 1) c.degree)
      else c.lineOrigin) := by
  show ((c.points.withVectors _).vectors).getD j [] = _
  rw [ControlPoints.vectors_withVectors, List.getD_eq_getElem _ _ (by simpa using hj),
      List.getElem_map, List.getElem_range]

theorem pointCount_peak : (c.peak m a).pointCount = c.pointCount := by
  show ((c.points.withVectors _).vectors).length = _
  rw [ControlPoints.vectors_withVectors, List.length_map, List.length_range]

theorem onLine_peak : ∀ x ∈ (c.peak m a).points.vectors,
    Spline.OnLine c.lineOrigin c.lineDirection x := by
  intro x hx
  have vectors : (c.peak m a).points.vectors = _ := ControlPoints.vectors_withVectors _ _
  rw [vectors] at hx
  obtain ⟨j, -, rfl⟩ := List.mem_map.1 hx
  split
  · exact ⟨_, rfl⟩
  · exact ⟨0, by rw [zero_smul, add_zero]⟩

theorem vectorSize_peak : (c.peak m a).vectorSize = c.vectorSize := by
  have alike : Alike c (c.peak m a) := alike_peak
  rw [vectorSize, alike.rational, alike.dimension, vectorSize]

theorem degree_peak : (c.peak m a).degree = c.degree := rfl

theorem knots_peak : (c.peak m a).spline.knots = c.spline.knots := rfl

end Peak

section Search

variable [Precision K] [Precision.Exact K]

theorem regular_peak (valid : c.isValid = true) {m : Nat} {a : K} : (c.peak m a).Regular :=
  regular_of_isValid (alike_peak.isValid_of_onLine pointCount_peak onLine_peak valid)

/-- Evaluation reads the power where the picked span has the peak for its only other point. -/
theorem vectorAt_peak (valid : c.isValid = true) {m : Nat} {a : K}
    (acts : ∀ j, j ≤ c.spline.spanAt t → c.spline.spanAt t ≤ j + c.degree → j ≠ m →
      a ∈ stretch c.spline.knots.knot (j + 1) c.degree) :
    (c.peak m a).vectorAt t
      = Point.ofVec (c.lineOrigin + (t - a) ^ c.degree • c.lineDirection) := by
  have regular := regular_of_isValid valid
  have regular' : (c.peak m a).Regular := regular_peak valid
  have length : (c.peak m a).points.vectors.length = c.pointCount := pointCount_peak
  have padded : c.spline.knots.size = (c.peak m a).points.vectors.length + c.degree + 1 :=
    size_padded_knots regular'.toSound
  have span : (c.peak m a).spline.spanAt t = c.spline.spanAt t := by
    show c.spline.knots.span ((c.peak m a).points.vectors.length - 1) c.degree t = _
    rw [length]
    rfl
  obtain ⟨F, follows⟩ := regular'.toSound.exists_follows vectorSize_peak degree_peak
  rw [knots_peak] at follows
  obtain ⟨hi, hi', some, -⟩ := regular.spanAt_spec t
  obtain ⟨t', low, high⟩ := exists_between some
  rw [regular'.vectorAt_eq vectorSize_peak degree_peak follows (span ▸ low) (span ▸ high),
      follows.eq_form regular.toSound.ordered_padded padded hi (hi'.trans_eq length.symm) low high
        (PolarForm.power a c.lineOrigin c.lineDirection) ?_ (Multiset.card_replicate _ _),
      PolarForm.power_apply, Multiset.map_replicate, Multiset.prod_replicate]
  intro j hj hj'
  rw [getD_peak (by omega)]
  split
  · rfl
  · next other => rw [PolarForm.power_of_mem (acts j hj hj' other)]

/-- By definition the curve rests where the peak does not act. -/
theorem definedVector_peak (valid : c.isValid = true) {m : Nat} {a : K} (h₀ : c.domain.1 ≤ t)
    (h₁ : t ≤ c.domain.2)
    (rests : ∀ k, c.spline.knots.onSpan c.domain.2 t k = true → m ≤ k → ¬k ≤ m + c.degree) :
    (c.peak m a).definedVector t = Point.ofVec c.lineOrigin := by
  have regular := regular_of_isValid valid
  have regular' : (c.peak m a).Regular := regular_peak valid
  have length : (c.peak m a).points.vectors.length = c.pointCount := pointCount_peak
  have padded : c.spline.knots.size = (c.peak m a).points.vectors.length + c.degree + 1 :=
    size_padded_knots regular'.toSound
  obtain ⟨F, follows⟩ := regular'.toSound.exists_follows vectorSize_peak degree_peak
  rw [knots_peak] at follows
  obtain ⟨k, hk, hk', on⟩ := regular.toSound.exists_onSpan regular.domain_lt h₀ h₁
  obtain ⟨t', low, high⟩ := exists_between (KnotVector.knot_lt_of_onSpan on)
  rw [regular'.toSound.definedVector_eq vectorSize_peak degree_peak follows hk
        (hk'.trans_eq length.symm) on low high,
      follows.eq_form regular.toSound.ordered_padded padded hk (hk'.trans_eq length.symm) low high
        (.const c.lineOrigin) ?_ (Multiset.card_replicate _ _)]
  · rfl
  · intro j hj hj'
    rw [getD_peak (by omega), if_neg]
    · rfl
    · rintro rfl
      exact rests k on hj hj'

/-- **A parameter that the search moves out of its span gets a value of another piece**, where
the picked span has a control point that does not act at the parameter. -/
theorem pointAt_peak_ne (valid : c.isValid = true) {m : Nat} {a : K} (h₀ : c.domain.1 ≤ t)
    (h₁ : t ≤ c.domain.2) (away : t ≠ a)
    (acts : ∀ j, j ≤ c.spline.spanAt t → c.spline.spanAt t ≤ j + c.degree → j ≠ m →
      a ∈ stretch c.spline.knots.knot (j + 1) c.degree)
    (rests : ∀ k, c.spline.knots.onSpan c.domain.2 t k = true → m ≤ k → ¬k ≤ m + c.degree) :
    (c.peak m a).pointAt t ≠ (c.peak m a).definedAt t := by
  have alike : Alike c (c.peak m a) := alike_peak
  intro same
  rw [pointAt, definedAt, alike.rational, vectorAt_peak valid acts,
      definedVector_peak valid h₀ h₁ rests] at same
  -- both are points of the line, so the vectors are the same
  have still := Point.ofVec_injective (eq_of_location_of_onLine ⟨_, rfl⟩
    ⟨0, by rw [zero_smul, add_zero]⟩ same)
  rw [add_eq_left, smul_eq_zero] at still
  rcases still with zero | zero
  · exact away (sub_eq_zero.1 (eq_zero_of_pow_eq_zero zero))
  · exact lineDirection_ne_zero (regular_of_isValid valid).dimension_pos zero

/-- **A parameter that the tolerance moves into another span is not evaluated rightly**, on some
control points. -/
theorem exists_pointAt_ne (valid : c.isValid = true) (h₀ : c.domain.1 ≤ t)
    (h₁ : t ≤ c.domain.2) (moved : ¬c.Resolves t) :
    ∃ c', Alike c c' ∧ c'.isValid = true ∧ c'.pointAt t ≠ c'.definedAt t := by
  have regular := regular_of_isValid valid
  obtain ⟨two, enough, size, degree⟩ := regular.counts
  have ordered := regular.toSound.ordered_padded
  have size : c.spline.knots.size = c.pointCount + c.degree + 1 :=
    size_padded_knots regular.toSound
  obtain ⟨first, last, -, -⟩ := regular.end_spans
  obtain ⟨hi, hi', -, pick⟩ := regular.spanAt_spec t
  suffices found : ∃ m a, (c.peak m a).pointAt t ≠ (c.peak m a).definedAt t by
    obtain ⟨m, a, differ⟩ := found
    exact ⟨c.peak m a, alike_peak, alike_peak.isValid_of_onLine pointCount_peak onLine_peak valid,
      differ⟩
  unfold Resolves at moved
  split_ifs at pick moved with late early
  · -- the last span is continued to the left
    rw [not_le, ← last] at moved
    refine ⟨c.pointCount - 1, c.spline.knots.knot (c.pointCount - 1),
      pointAt_peak_ne valid h₀ h₁ moved.ne (fun j hj hj' other => ?_) fun k on low high => ?_⟩
    · rw [pick] at hj hj'
      have member := mem_stretch c.spline.knots.knot (j + 1)
        (show c.pointCount - 1 - (j + 1) < c.degree by omega)
      rwa [show j + 1 + (c.pointCount - 1 - (j + 1)) = c.pointCount - 1 by omega] at member
    · obtain ⟨before, -⟩ := KnotVector.within_of_onSpan on
      have := ordered.lt_of_knot_lt (i := k) (by omega) (lt_of_le_of_lt before moved)
      omega
  · -- the first span is continued to the right
    simp only [not_forall, not_le] at moved
    obtain ⟨-, moved⟩ := moved
    rw [← first] at moved
    refine ⟨0, c.spline.knots.knot (c.degree + 1),
      pointAt_peak_ne valid h₀ h₁ moved.ne' (fun j hj hj' other => ?_) fun k on low high => ?_⟩
    · rw [pick] at hj hj'
      have member := mem_stretch c.spline.knots.knot (j + 1)
        (show c.degree - j < c.degree by omega)
      rwa [show j + 1 + (c.degree - j) = c.degree + 1 by omega] at member
    · obtain ⟨-, behind⟩ := KnotVector.within_of_onSpan on
      have := ordered.lt_of_knot_lt (j := k + 1) (by omega) (lt_of_lt_of_le moved behind)
      omega
  · exact absurd (fun e => absurd e early) moved

omit [IsStrictOrderedRing K] [Precision.Exact K] in
/-- A curve with a span has a point at every parameter. -/
theorem Regular.pointAt?_eq (h : c.Regular) (t : K) : c.pointAt? t = some (c.pointAt t) :=
  if_pos (decide_eq_true h.order_le)

omit [IsStrictOrderedRing K] [Precision.Exact K] in
/-- The knots alone decide whether a parameter stays in its span. -/
theorem Alike.resolves_iff {c' : Curve K} (h : Alike c c') (hc : c.Sound) (hc' : c'.Sound)
    (t : K) : c'.Resolves t ↔ c.Resolves t := by
  have two := hc.two_le_order
  have count := hc.knotCount_eq
  have count' := hc'.knotCount_eq
  rw [knotCount, h.knots, h.order] at count'
  rw [knotCount] at count
  have points : c'.pointCount = c.pointCount := by omega
  rw [Resolves, Resolves, h.domain, h.knots, h.order, points]

/-- **Evaluation equals the definition, as far as the span search tells spans apart.**  The
weight of a rational curve is positive on the whole domain; and at a parameter the points of
all curves on the same knots are those of the definition exactly if the tolerance of the
search leaves the parameter in its span. -/
theorem pointAt_eq_definedAt_iff (valid : c.isValid = true) (h₀ : c.domain.1 ≤ t)
    (h₁ : t ≤ c.domain.2) :
    (c.isRational = true → 0 < Point.weight (c.definedVector t))
      ∧ ((∀ c', Alike c c' → c'.isValid = true → c'.pointAt? t = some (c'.definedAt t))
        ↔ c.Resolves t) := by
  have regular := regular_of_isValid valid
  refine ⟨fun rational => regular.weight_definedVector_pos rational h₀ h₁, fun all => ?_,
    fun resolves c' alike valid' => ?_⟩
  · by_contra moved
    obtain ⟨c', alike, valid', differ⟩ := exists_pointAt_ne valid h₀ h₁ moved
    have same := all c' alike valid'
    rw [(regular_of_isValid valid').pointAt?_eq] at same
    exact differ (Option.some.inj same)
  · have regular' := regular_of_isValid valid'
    have value := regular'.vectorAt_eq_definedVector (alike.domain ▸ h₀) (alike.domain ▸ h₁)
      ((alike.resolves_iff regular.toSound regular'.toSound t).2 resolves)
    rw [regular'.pointAt?_eq, pointAt, definedAt, value]

end Search

/-- Two knots before the end that are closer to it, or to each other, than the spacing of the
numbers. -/
def closeKnots : Curve ℚ where
  dimension := 1
  order := 3
  points := .cartesian [[0], [0], [0], [1], [0]]
  knots := ⟨[0, 0, 1 / 2 - 5 / 2 ^ 54, 1 / 2 - 1 / 2 ^ 54, 1 / 2, 1 / 2]⟩

/-- Away from the ends, and in the last span itself, the points are right. -/
theorem pointAt_closeKnots :
    closeKnots.isValid = true ∧ closeKnots.Resolves (1 / 4)
      ∧ closeKnots.pointAt? (1 / 4) = some (closeKnots.definedAt (1 / 4))
      ∧ closeKnots.pointAt? (1 / 2 - 1 / 2 ^ 54)
          = some (closeKnots.definedAt (1 / 2 - 1 / 2 ^ 54)) := by
  have valid : closeKnots.isValid = true := by decide +kernel
  have alike : Alike closeKnots closeKnots := ⟨rfl, rfl, rfl, rfl⟩
  have middle : closeKnots.Resolves (1 / 4) := by decide +kernel
  have late : closeKnots.Resolves (1 / 2 - 1 / 2 ^ 54) := by decide +kernel
  exact ⟨valid, middle,
    (pointAt_eq_definedAt_iff valid (by decide +kernel) (by decide +kernel)).2.2 middle _ alike
      valid,
    (pointAt_eq_definedAt_iff valid (by decide +kernel) (by decide +kernel)).2.2 late _ alike
      valid⟩

/-- Between the two knots the last span is continued, and the point leaves the control polygon. -/
theorem closeKnots_pointAt_ne :
    closeKnots.isValid = true
      ∧ closeKnots.domain.1 ≤ 1 / 2 - 3 / 2 ^ 54 ∧ 1 / 2 - 3 / 2 ^ 54 ≤ closeKnots.domain.2
      ∧ closeKnots.pointAt (1 / 2 - 3 / 2 ^ 54) = [-24 / 5]
      ∧ closeKnots.definedAt (1 / 2 - 3 / 2 ^ 54) = [1 / 5] := by
  decide +kernel

end Curve

end RationalSpline
