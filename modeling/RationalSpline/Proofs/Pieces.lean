/-
  RationalSpline.Proofs.Pieces
  ────────────────────────────
  THE PIECES OF A SPLINE.

  On each non-empty span a spline is one polynomial, and the control points that act
  there are values of its polar form at consecutive knots.  `Follows` says so of all
  spans at once.  The forms are named by the parameters inside the spans, not by the
  numbers of the spans: an operation that renumbers the spans keeps the forms.

  Two curves that follow forms with equal diagonals have equal values
  (`Curve.definedVector_eq_of_follows`).
-/
import RationalSpline.Proofs.CoxDeBoor
import RationalSpline.Proofs.Sound

namespace RationalSpline

variable {K : Type} [Field K] [LinearOrder K] {d p q : Nat}

/-- For each parameter the polar form of the piece around it. -/
abbrev Pieces (K : Type) [Field K] (d p : Nat) := K → PolarForm K (Fin d → K) p

/-- Inside each span, the control points that act on it are values of the form there. -/
def Follows (U : KnotVector K) (P : List (Point K)) (F : Pieces K d p) : Prop :=
  ∀ i, p ≤ i → i < P.length → ∀ t, U.knot i < t → t < U.knot (i + 1) →
    ∀ j, j ≤ i → i ≤ j + p → P.getD j [] = Point.ofVec (F t (stretch U.knot (j + 1) p))

/-! ## §1. Every spline has its forms. -/

theorem KnotVector.Ordered.separated {U : KnotVector K} (h : U.Ordered) {i : Nat} (hp : p ≤ i)
    (hi : i + p < U.size) (span : U.knot i < U.knot (i + 1)) :
    Separated (fun r => U.knot (i - p + 1 + r)) p := by
  intro r hr s hs hs'
  have low : U.knot (i - p + 1 + r) ≤ U.knot i := h.knot_le (by omega) (by omega)
  have high : U.knot (i + 1) ≤ U.knot (i - p + 1 + s) := h.knot_le (by omega) (by omega)
  exact ne_of_lt (lt_of_le_of_lt low (lt_of_lt_of_le span high))

/-- **Control points of one size are the values of polar forms, one for each span.** -/
theorem exists_follows {U : KnotVector K} {P : List (Point K)} (h : U.Ordered)
    (size : U.size = P.length + p + 1) (sized : ∀ x ∈ P, x.length = d) :
    ∃ F : Pieces K d p, Follows U P F := by
  have each : ∀ t, ∃ f : PolarForm K (Fin d → K) p, ∀ i, p ≤ i → i < P.length →
      U.knot i < t → t < U.knot (i + 1) → ∀ j, j ≤ i → i ≤ j + p →
        P.getD j [] = Point.ofVec (f (stretch U.knot (j + 1) p)) := by
    intro t
    by_cases inside : ∃ i, p ≤ i ∧ i < P.length ∧ U.knot i < t ∧ t < U.knot (i + 1)
    · obtain ⟨i, hp, hi, low, high⟩ := inside
      have apart := h.separated hp (by omega) (lt_trans low high)
      refine ⟨PolarForm.ofStretches _ (fun r => Point.coords d (P.getD (i - p + r) [])) apart, ?_⟩
      intro i' hp' hi' low' high' j hj hj'
      -- no other span contains `t`
      obtain rfl : i' = i := by
        have h₁ : i' < i + 1 := h.lt_of_knot_lt (by omega) (lt_trans low' high)
        have h₂ : i < i' + 1 := h.lt_of_knot_lt (by omega) (lt_trans low high')
        omega
      have same : stretch U.knot (j + 1) p
          = stretch (fun r => U.knot (i' - p + 1 + r)) (j - (i' - p)) p :=
        stretch_congr fun r _ => by
          rw [show i' - p + 1 + (j - (i' - p) + r) = j + 1 + r by omega]
      have fits : (P.getD j []).length = d := by
        rw [List.getD_eq_getElem _ _ (show j < P.length by omega)]
        exact sized _ (List.getElem_mem _)
      rw [same, PolarForm.ofStretches_stretch _ apart (by omega),
          show i' - p + (j - (i' - p)) = j by omega, Point.ofVec_coords fits]
    · refine ⟨⟨fun _ => 0, fun _ _ _ _ _ => by simp [mix]⟩, ?_⟩
      intro i hp hi low high
      exact absurd ⟨i, hp, hi, low, high⟩ inside
  choose F hF using each
  exact ⟨F, fun i hp hi t low high j hj hj' => hF t i hp hi low high j hj hj'⟩

/-- The control points that act on a span determine its form. -/
theorem Follows.eq_form {U : KnotVector K} {P : List (Point K)} {F : Pieces K d p}
    (follows : Follows U P F) (ordered : U.Ordered) (size : U.size = P.length + p + 1) {i : Nat}
    (hp : p ≤ i) (hi : i < P.length) {t : K} (low : U.knot i < t) (high : t < U.knot (i + 1))
    (g : PolarForm K (Fin d → K) p)
    (same : ∀ j, j ≤ i → i ≤ j + p → P.getD j [] = Point.ofVec (g (stretch U.knot (j + 1) p)))
    {s : Multiset K} (card : s.card = p) : F t s = g s := by
  have apart := ordered.separated hp (by omega) (lt_trans low high)
  refine PolarForm.eq_of_stretches (F t) g apart (fun j hj => ?_) card
  have knots : stretch (fun r => U.knot (i - p + 1 + r)) j p = stretch U.knot (i - p + j + 1) p :=
    stretch_congr fun r _ => congrArg _ (by omega)
  rw [knots]
  refine Point.ofVec_injective ?_
  rw [← follows i hp hi t low high (i - p + j) (by omega) (by omega),
      same (i - p + j) (by omega) (by omega)]

/-! ## §2. The knots at the two ends. -/

/-- The first and the last padded knot act on nothing. -/
theorem Follows.congr_ends {U W : KnotVector K} {P : List (Point K)} {F : Pieces K d p}
    (h : Follows U P F) (hp : 0 < p)
    (same : ∀ i, 1 ≤ i → i < P.length + p → U.knot i = W.knot i) : Follows W P F := by
  intro i hpi hi t low high j hj hj'
  rw [← same i (by omega) (by omega)] at low
  rw [← same (i + 1) (by omega) (by omega)] at high
  rw [h i hpi hi t low high j hj hj', stretch_congr fun r hr => same (j + 1 + r) (by omega)
    (by omega)]

/-! ## §3. Values. -/

namespace Curve

/-- The padded knots of a curve on which the control points act. -/
theorem size_padded_knots {c : Curve K} (h : c.Sound) :
    c.spline.knots.size = c.points.vectors.length + c.degree + 1 := by
  have order := h.two_le_order
  have count := h.knotCount_eq
  have points : c.points.vectors.length = c.pointCount := rfl
  have degree : c.degree = c.order - 1 := rfl
  rw [size_knots_spline]
  omega

theorem Sound.domain_start {c : Curve K} (h : c.Sound) :
    c.domain.1 = c.spline.knots.knot c.degree := by
  obtain ⟨order, points, size, degree⟩ := h.counts
  show c.knots.knot (c.order - 2) = (c.knots.padded c.order).knot (c.order - 1)
  rw [show c.order - 1 = c.order - 2 + 1 by omega, KnotVector.knot_padded _ _ (by omega)]

theorem Sound.domain_finish {c : Curve K} (h : c.Sound) :
    c.domain.2 = c.spline.knots.knot c.pointCount := by
  obtain ⟨order, points, size, degree⟩ := h.counts
  show c.knots.knot (c.knots.size + 1 - c.order) = (c.knots.padded c.order).knot c.pointCount
  rw [show c.pointCount = c.knots.size + 1 - c.order + 1 by omega,
      KnotVector.knot_padded _ _ (by omega)]

/-- **A spline whose counts fit makes a sound curve.** -/
theorem sound_withSpline {c : Curve K} {S : Spline K} (positive : 0 < S.degree)
    (enough : S.degree < S.points.length)
    (size : S.knots.size = S.points.length + S.degree + 1) (ordered : S.knots.Ordered)
    (sized : ∀ x ∈ S.points, x.length = c.vectorSize) : (c.withSpline S).Sound where
  two_le_order := Nat.succ_le_succ positive
  order_le := by
    rw [pointCount_withSpline]
    exact enough
  knotCount_eq := by
    rw [knotCount_withSpline, pointCount_withSpline, size]
    show _ = _ + (S.degree + 1) - 2
    omega
  ordered := ordered.sublist ((List.dropLast_sublist _).trans (List.tail_sublist _))
  sized := by
    rw [vectors_withSpline, vectorSize_withSpline]
    exact sized

/-- Its domain lies between the knots of the spline that are inner by the degree. -/
theorem domain_withSpline {c : Curve K} {S : Spline K} (positive : 0 < S.degree)
    (enough : S.degree < S.points.length)
    (size : S.knots.size = S.points.length + S.degree + 1) :
    (c.withSpline S).domain = (S.knots.knot S.degree, S.knots.knot S.points.length) := by
  refine Prod.ext ?_ ?_
  · show S.knots.unpadded.knot (S.degree + 1 - 2) = _
    rw [KnotVector.knot_unpadded _ (by omega)]
    exact congrArg _ (by omega)
  · show S.knots.unpadded.knot (S.knots.unpadded.size + 1 - (S.degree + 1)) = _
    rw [KnotVector.size_unpadded, KnotVector.knot_unpadded _ (by omega)]
    exact congrArg _ (by omega)

/-- The value follows from the stored vector and its meaning. -/
theorem definedAt_congr {c e : Curve K} {t s : K} (rational : e.isRational = c.isRational)
    (vector : e.definedVector s = c.definedVector t) : e.definedAt s = c.definedAt t := by
  rw [definedAt, definedAt, rational, vector]

/-- The control vectors as a family of vectors. -/
theorem Sound.vectors_eq {c : Curve K} (h : c.Sound) (hd : c.vectorSize = d) :
    c.points.vectors
      = ((List.range c.pointCount).map fun j => Point.coords d (c.points.vectors.getD j [])).map
          Point.ofVec := by
  refine List.ext_getElem (by simp [pointCount, ControlPoints.length]) fun i h₁ h₂ => ?_
  have fits : (c.points.vectors.getD i []).length = d := by
    rw [List.getD_eq_getElem _ _ h₁, ← hd]
    exact h.sized _ (List.getElem_mem _)
  simp only [List.map_map, List.getElem_map, List.getElem_range, Function.comp_apply]
  rw [Point.ofVec_coords fits, List.getD_eq_getElem _ _ h₁]

/-- The vector at `t` as a sum over all control points. -/
theorem Sound.definedVector_eq_sum {c : Curve K} (h : c.Sound) (hd : c.vectorSize = d) (t : K) :
    c.definedVector t
      = Point.ofVec (∑ j ∈ Finset.range c.pointCount,
          c.spline.knots.coxDeBoor c.domain.2 t c.degree j
            • Point.coords d (c.points.vectors.getD j [])) := by
  rw [definedVector, hd, h.vectors_eq hd, Point.combine_ofVec]
  congr 1
  rw [List.zipWith_map, List.zipWith_self, ← h.vectors_eq hd]
  rfl

section Values

variable [IsStrictOrderedRing K]

theorem Sound.ordered_padded {c : Curve K} (h : c.Sound) : c.spline.knots.Ordered := by
  obtain ⟨order, points, size, degree⟩ := h.counts
  exact h.ordered.padded (by omega) c.order

theorem Sound.exists_follows {c : Curve K} (h : c.Sound) (hd : c.vectorSize = d)
    (hp : c.degree = p) : ∃ F : Pieces K d p, Follows c.spline.knots c.points.vectors F := by
  subst hd hp
  exact RationalSpline.exists_follows h.ordered_padded (size_padded_knots h) h.sized

/-- On each span the curve is the diagonal of the form it follows. -/
theorem Sound.definedVector_eq {c : Curve K} (h : c.Sound) (hd : c.vectorSize = d)
    (hp : c.degree = p) {F : Pieces K d p} (follows : Follows c.spline.knots c.points.vectors F)
    {i : Nat} (hpi : p ≤ i) (hi : i < c.pointCount) {t t' : K}
    (on : c.spline.knots.onSpan c.domain.2 t i = true)
    (low : c.spline.knots.knot i < t') (high : t' < c.spline.knots.knot (i + 1)) :
    c.definedVector t = Point.ofVec (F t' (Multiset.replicate p t)) := by
  have ordered := h.ordered_padded
  have size := size_padded_knots h
  have points : c.points.vectors.length = c.pointCount := rfl
  rw [points, hp] at size
  rw [h.definedVector_eq_sum hd, hp]
  congr 1
  refine KnotVector.coxDeBoor_sum (i := i) (ordered.spanOnly on (by omega) (by omega)) hpi hi ?_
    (F t') ?_
  · intro r hr s hs hs'
    have below : c.spline.knots.knot r ≤ c.spline.knots.knot i :=
      ordered.knot_le hr (by omega)
    have above : c.spline.knots.knot (i + 1) ≤ c.spline.knots.knot s :=
      ordered.knot_le hs (by omega)
    exact ne_of_lt (lt_of_le_of_lt below (lt_of_lt_of_le (lt_trans low high) above))
  · intro j hj hj'
    rw [follows i hpi hi t' low high j hj hj', Point.coords_ofVec]

/-- Every parameter of the domain has its span. -/
theorem Sound.exists_onSpan {c : Curve K} (h : c.Sound) (domain : c.domain.1 < c.domain.2)
    {t : K} (h₀ : c.domain.1 ≤ t) (h₁ : t ≤ c.domain.2) :
    ∃ i, c.degree ≤ i ∧ i < c.pointCount ∧ c.spline.knots.onSpan c.domain.2 t i = true := by
  have ordered := h.ordered_padded
  have size := size_padded_knots h
  have points : c.points.vectors.length = c.pointCount := rfl
  have order := h.order_le
  have degree : c.degree = c.order - 1 := rfl
  rw [points] at size
  rw [h.domain_start] at h₀ domain
  rcases lt_or_eq_of_le h₁ with inside | rfl
  · -- the last knot not above `t`
    have upper := inside
    rw [h.domain_finish] at upper
    have start := (ordered.knot_le_iff (by omega)).1 h₀
    have finish : ¬c.pointCount < c.spline.knots.countUpTo t :=
      fun e => absurd ((ordered.knot_le_iff (by omega)).2 e) (not_le.2 upper)
    have low := (ordered.knot_le_iff (i := c.spline.knots.countUpTo t - 1) (u := t)
      (by omega)).2 (by omega)
    have high : ¬c.spline.knots.knot (c.spline.knots.countUpTo t - 1 + 1) ≤ t :=
      fun e => by
        have := (ordered.knot_le_iff (by omega)).1 e
        omega
    exact ⟨c.spline.knots.countUpTo t - 1, by omega, by omega,
      KnotVector.onSpan_iff.2 (Or.inl ⟨low, not_le.1 high, inside⟩)⟩
  · -- the last knot below the end of the domain
    have start := (ordered.knot_lt_iff (by omega)).1 domain
    have finish : ¬c.pointCount < c.spline.knots.countBelow c.domain.2 := fun e => by
      have := (ordered.knot_lt_iff (by omega)).2 e
      rw [← h.domain_finish] at this
      exact lt_irrefl _ this
    have low := (ordered.knot_lt_iff (i := c.spline.knots.countBelow c.domain.2 - 1)
      (u := c.domain.2) (by omega)).2 (by omega)
    have high : ¬c.spline.knots.knot (c.spline.knots.countBelow c.domain.2 - 1 + 1)
        < c.domain.2 := fun e => by
      have := (ordered.knot_lt_iff (by omega)).1 e
      omega
    have last : c.spline.knots.knot (c.spline.knots.countBelow c.domain.2 - 1 + 1)
        ≤ c.domain.2 := by
      rw [h.domain_finish]
      exact ordered.knot_le (by rw [← h.domain_finish]; omega) (by omega)
    exact ⟨c.spline.knots.countBelow c.domain.2 - 1, by omega, by omega,
      KnotVector.onSpan_iff.2 (Or.inr ⟨low, le_antisymm last (not_lt.1 high), rfl⟩)⟩

/-- A coordinate common to all control vectors is that of every value. -/
theorem Sound.getD_definedVector {c : Curve K} (h : c.Sound) (domain : c.domain.1 < c.domain.2)
    {i : Nat} (hi : i < c.vectorSize) {a : K} (common : ∀ x ∈ c.points.vectors, x.getD i 0 = a)
    {t : K} (h₀ : c.domain.1 ≤ t) (h₁ : t ≤ c.domain.2) : (c.definedVector t).getD i 0 = a := by
  have size := size_padded_knots h
  have points : c.points.vectors.length = c.pointCount := rfl
  obtain ⟨F, follows⟩ := h.exists_follows rfl rfl
  obtain ⟨k, hk, hk', on⟩ := h.exists_onSpan domain h₀ h₁
  have span := KnotVector.knot_lt_of_onSpan on
  obtain ⟨t', low, high⟩ := exists_between span
  have entry : ∀ v : Fin c.vectorSize → K, (Point.ofVec v).getD i 0 = v ⟨i, hi⟩ := fun v => by
    rw [List.getD_eq_getElem _ _ (by rwa [Point.length_ofVec])]
    simp [Point.ofVec]
  rw [h.definedVector_eq rfl rfl follows hk hk' on low high, entry]
  have apart := h.ordered_padded.separated hk (by omega) span
  refine PolarForm.eq_of_stretches ((F t').coordinate ⟨i, hi⟩) (.const a) apart ?_
    (Multiset.card_replicate _ _)
  intro j hj
  have vector := follows k hk hk' t' low high (k - c.degree + j) (by omega) (by omega)
  have member : c.points.vectors.getD (k - c.degree + j) [] ∈ c.points.vectors := by
    rw [List.getD_eq_getElem _ _ (by omega)]
    exact List.getElem_mem _
  have coordinate := common _ member
  rw [vector, entry] at coordinate
  have knots : stretch (fun r => c.spline.knots.knot (k - c.degree + 1 + r)) j c.degree
      = stretch c.spline.knots.knot (k - c.degree + j + 1) c.degree :=
    stretch_congr fun r _ => congrArg _ (by omega)
  rw [knots]
  exact coordinate

/-- Spans of one parameter in two knot vectors overlap. -/
theorem exists_between_of_onSpan {U W : KnotVector K} {finish t : K} {i j : Nat}
    (hU : U.onSpan finish t i = true) (hW : W.onSpan finish t j = true) :
    ∃ t', U.knot i < t' ∧ t' < U.knot (i + 1) ∧ W.knot j < t' ∧ t' < W.knot (j + 1) := by
  have overlap : max (U.knot i) (W.knot j) < min (U.knot (i + 1)) (W.knot (j + 1)) := by
    rcases KnotVector.onSpan_iff.1 hU with ⟨a, b, e⟩ | ⟨a, b, e⟩ <;>
      rcases KnotVector.onSpan_iff.1 hW with ⟨a', b', e'⟩ | ⟨a', b', e'⟩
    · exact lt_of_le_of_lt (max_le a a') (lt_min b b')
    · exact absurd e' (ne_of_lt e)
    · exact absurd e (ne_of_lt e')
    · rw [b, b', min_self]
      exact max_lt a a'
  obtain ⟨t', low, high⟩ := exists_between overlap
  exact ⟨t', (max_lt_iff.1 low).1, (lt_min_iff.1 high).1, (max_lt_iff.1 low).2,
    (lt_min_iff.1 high).2⟩

/-- **Curves that follow forms with equal diagonals have equal values.** -/
theorem definedVector_eq_of_follows {c e : Curve K} (hc : c.Sound) (he : e.Sound)
    (same : e.domain = c.domain) (domain : c.domain.1 < c.domain.2)
    (hcd : c.vectorSize = d) (hed : e.vectorSize = d) (hcp : c.degree = p) (heq : e.degree = q)
    {F : Pieces K d p} {G : Pieces K d q}
    (hF : Follows c.spline.knots c.points.vectors F)
    (hG : Follows e.spline.knots e.points.vectors G)
    (diagonal : ∀ t' t, G t' (Multiset.replicate q t) = F t' (Multiset.replicate p t))
    {t : K} (h₀ : c.domain.1 ≤ t) (h₁ : t ≤ c.domain.2) :
    e.definedVector t = c.definedVector t := by
  obtain ⟨i, hi, hi', onc⟩ := hc.exists_onSpan domain h₀ h₁
  obtain ⟨j, hj, hj', one⟩ := he.exists_onSpan (same ▸ domain) (same ▸ h₀) (same ▸ h₁)
  obtain ⟨t', l₁, u₁, l₂, u₂⟩ := exists_between_of_onSpan onc (same ▸ one)
  rw [hc.definedVector_eq hcd hcp hF (hcp ▸ hi) hi' onc l₁ u₁,
      he.definedVector_eq hed heq hG (heq ▸ hj) hj' one l₂ u₂, diagonal]

end Values

/-! ## §4. The same curve on other knots. -/

/-- The points of `P'` come from those of `P` by combinations with shares from 0 to 1: what
such combinations pass on from all points of `P` holds for all points of `P'`. -/
def InHull (P P' : List (Point K)) : Prop :=
  ∀ Q : Point K → Prop, (∀ a x y, 0 ≤ a → a ≤ 1 → Q x → Q y → Q (Point.blend a x y)) →
    (∀ x ∈ P, Q x) → ∀ x ∈ P', Q x

theorem InHull.trans {P P' P'' : List (Point K)} (h₁ : InHull P P') (h₂ : InHull P' P'') :
    InHull P P'' :=
  fun Q blend all => h₂ Q blend (h₁ Q blend all)

theorem inHull_of_subset {P P' : List (Point K)} (h : P' ⊆ P) : InHull P P' :=
  fun _ _ all x hx => all x (h hx)

/-- `e` is `c` on other knots: what is visible of the shape stays, and so does every family
of forms. -/
structure Keeps (c e : Curve K) : Prop where
  /-- The number of coordinates stays. -/
  dimension : e.dimension = c.dimension
  /-- The order stays. -/
  order : e.order = c.order
  /-- The meaning of the vectors stays. -/
  rational : e.isRational = c.isRational
  /-- The parameters stay. -/
  domain : e.domain = c.domain
  /-- The pieces stay. -/
  follows : ∀ {d p : Nat} {F : Pieces K d p}, c.degree = p →
    Follows c.spline.knots c.points.vectors F → Follows e.spline.knots e.points.vectors F
  /-- The control vectors stay in the hull of those before. -/
  hull : InHull c.points.vectors e.points.vectors

namespace Keeps

variable {b c e : Curve K}

theorem refl (c : Curve K) : Keeps c c := 
  ⟨rfl, rfl, rfl, rfl, fun _ h => h, inHull_of_subset (List.Subset.refl _)⟩

theorem degree (h : Keeps c e) : e.degree = c.degree := by
  rw [Curve.degree, h.order, Curve.degree]

theorem vectorSize (h : Keeps c e) : e.vectorSize = c.vectorSize := by
  rw [Curve.vectorSize, h.rational, h.dimension, Curve.vectorSize]

theorem trans (h₁ : Keeps b c) (h₂ : Keeps c e) : Keeps b e where
  dimension := h₂.dimension.trans h₁.dimension
  order := h₂.order.trans h₁.order
  rational := h₂.rational.trans h₁.rational
  domain := h₂.domain.trans h₁.domain
  follows hp h := h₂.follows (h₁.degree.trans hp) (h₁.follows hp h)
  hull := h₁.hull.trans h₂.hull

variable [IsStrictOrderedRing K]

/-- Its values stay. -/
theorem definedVector_eq (h : Keeps c e) (hc : c.Sound) (he : e.Sound)
    (domain : c.domain.1 < c.domain.2) {t : K} (h₀ : c.domain.1 ≤ t) (h₁ : t ≤ c.domain.2) :
    e.definedVector t = c.definedVector t := by
  obtain ⟨F, follows⟩ := hc.exists_follows rfl rfl
  exact definedVector_eq_of_follows hc he h.domain domain rfl h.vectorSize rfl h.degree follows
    (h.follows rfl follows) (fun _ _ => rfl) h₀ h₁

theorem definedAt_eq (h : Keeps c e) (hc : c.Sound) (he : e.Sound)
    (domain : c.domain.1 < c.domain.2) {t : K} (h₀ : c.domain.1 ≤ t) (h₁ : t ≤ c.domain.2) :
    e.definedAt t = c.definedAt t :=
  definedAt_congr h.rational (h.definedVector_eq hc he domain h₀ h₁)

end Keeps

end Curve

end RationalSpline
