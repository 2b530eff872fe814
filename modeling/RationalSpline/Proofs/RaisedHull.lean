/-
  RationalSpline.Proofs.RaisedHull
  ────────────────────────────────
  RAISED CONTROL POINTS LIE IN THE HULL.

  A polar form read at a number between two others is a combination, with shares from
  0 to 1, of its values at those two.  So the form of a piece, read at arguments that
  hold every knot between them and the piece as often as the knot is repeated, is such
  a combination of control points: each further argument lies between the two knots at
  the ends of a stretch, and either of these makes the stretch longer.

  A raised control point is a mean of such values.  Raising a regular curve therefore
  keeps its weights positive, wherever it keeps the values.
-/
import RationalSpline.Proofs.Elevation
import RationalSpline.Proofs.FullEnds

namespace RationalSpline

variable {K : Type} [Field K] [LinearOrder K] [IsStrictOrderedRing K] {d p inc : Nat}
  {Q : Point K → Prop}

/-! ## §1. Combinations with shares from 0 to 1. -/

namespace PolarForm

/-- The value at a number between two others. -/
theorem mem_of_between (f : PolarForm K (Fin d → K) p)
    (blend : ∀ a x y, 0 ≤ a → a ≤ 1 → Q x → Q y → Q (Point.blend a x y)) {s : Multiset K}
    (hs : s.card + 1 = p) {x y v : K} (lt : x < y) (low : x ≤ v) (high : v ≤ y)
    (hx : Q (Point.ofVec (f (x ::ₘ s)))) (hy : Q (Point.ofVec (f (y ::ₘ s)))) :
    Q (Point.ofVec (f (v ::ₘ s))) := by
  have width : 0 < y - x := sub_pos.2 lt
  rw [f.between hs lt.ne' v, ← Point.blend_ofVec]
  refine blend _ _ _ (div_nonneg (sub_nonneg.2 low) width.le) ?_ hx hy
  exact (div_le_one width).2 (sub_le_sub_right high x)

/-- The mean of several vectors is taken by one blend after another. -/
theorem mem_mean (blend : ∀ a x y, 0 ≤ a → a ≤ 1 → Q x → Q y → Q (Point.blend a x y))
    {s : Multiset (Fin d → K)} (some : s ≠ 0) (all : ∀ v ∈ s, Q (Point.ofVec v)) :
    Q (Point.ofVec ((s.card : K)⁻¹ • s.sum)) := by
  induction s using Multiset.induction_on with
  | empty => exact absurd rfl some
  | cons v s ih =>
      have first := all v (Multiset.mem_cons_self v s)
      rcases eq_or_ne s 0 with rfl | rest
      · simpa using first
      · have mean := ih rest fun w hw => all w (Multiset.mem_cons_of_mem hw)
        have pos : (0 : K) < s.card := Nat.cast_pos.2 (Multiset.card_pos.2 rest)
        have share : (((v ::ₘ s).card : K))⁻¹ • (v ::ₘ s).sum
            = mix ((s.card : K) / (s.card + 1)) v ((s.card : K)⁻¹ • s.sum) := by
          have pos' : (s.card : K) + 1 ≠ 0 := by positivity
          rw [Multiset.card_cons, Multiset.sum_cons, mix, smul_smul, Nat.cast_succ, smul_add]
          congr 2
          · field_simp
            ring
          · field_simp
        rw [share, ← Point.blend_ofVec]
        exact blend _ _ _ (by positivity) ((div_le_one (by positivity)).2 (by linarith)) first mean

end PolarForm

/-! ## §2. Values of the forms of a spline. -/

variable {U : KnotVector K} {P : List (Point K)} {F : Pieces K d p}

/-- A stretch of knots next to the span, with further arguments between the knots around it. -/
theorem Follows.mem_of_stretch (follows : Follows U P F) (ordered : U.Ordered)
    (size : U.size = P.length + p + 1)
    (blend : ∀ a x y, 0 ≤ a → a ≤ 1 → Q x → Q y → Q (Point.blend a x y)) (all : ∀ x ∈ P, Q x)
    {i : Nat} (hp : p ≤ i) (hi : i < P.length) {t : K} (low : U.knot i < t)
    (high : t < U.knot (i + 1)) {Y : Multiset K} {l n : Nat} (card : Y.card + n = p)
    (hl : l ≤ i) (hn : i ≤ l + n) (between : ∀ y ∈ Y, U.knot l ≤ y ∧ y ≤ U.knot (l + n + 1)) :
    Q (Point.ofVec (F t (Y + stretch U.knot (l + 1) n))) := by
  induction Y using Multiset.induction_on generalizing l n with
  | empty =>
      obtain rfl : n = p := by simpa using card
      rw [zero_add, ← follows i hp hi t low high l hl hn,
          List.getD_eq_getElem _ _ (show l < P.length by omega)]
      exact all _ (List.getElem_mem _)
  | cons y Y ih =>
      rw [Multiset.card_cons] at card
      have within := between y (Multiset.mem_cons_self y Y)
      have rest : ∀ z ∈ Y, U.knot l ≤ z ∧ z ≤ U.knot (l + n + 1) := fun z hz =>
        between z (Multiset.mem_cons_of_mem hz)
      have around : U.knot l < U.knot (l + n + 1) :=
        lt_of_le_of_lt (ordered.knot_le hl (by omega))
          (lt_of_lt_of_le (lt_trans low high) (ordered.knot_le (by omega) (by omega)))
      have size' : (Y + stretch U.knot (l + 1) n).card + 1 = p := by
        rw [Multiset.card_add, card_stretch]
        omega
      rw [Multiset.cons_add]
      refine (F t).mem_of_between blend size' around within.1 within.2 ?_ ?_
      · -- the knot below makes the stretch longer at its start
        obtain ⟨l, rfl⟩ : ∃ l', l = l' + 1 := ⟨l - 1, by omega⟩
        rw [← Multiset.add_cons, ← stretch_succ]
        refine ih (by omega) (by omega) (by omega) fun z hz => ⟨?_, ?_⟩
        · exact le_trans (ordered.knot_le (Nat.le_succ l) (by omega)) (rest z hz).1
        · rw [show l + (n + 1) + 1 = l + 1 + n + 1 by omega]
          exact (rest z hz).2
      · -- the knot above at its end
        rw [← Multiset.add_cons, show l + n + 1 = l + 1 + n by omega, ← stretch_succ_right]
        refine ih (by omega) hl (by omega) fun z hz => ⟨(rest z hz).1, ?_⟩
        exact le_trans (rest z hz).2 (ordered.knot_le (by omega) (by omega))

omit [IsStrictOrderedRing K] in
/-- The knots strictly between two numbers are a stretch, which is part of what holds each of
them. -/
theorem KnotVector.Ordered.stretch_between_le (ordered : U.Ordered) {x₀ x₁ : K} {X : Multiset K}
    (within : U.countBelow x₁ ≤ U.size)
    (held : ∀ z ∈ U.values, x₀ < z → z < x₁ → U.count z ≤ X.count z) :
    stretch U.knot (U.countUpTo x₀) (U.countBelow x₁ - U.countUpTo x₀) ≤ X := by
  have upTo := KnotVector.countUpTo_le_size U x₀
  refine stretch_le U (by omega) fun r hr => held _ (U.knot_mem (by omega)) ?_ ?_
  · refine not_le.1 fun le => ?_
    have := (ordered.knot_le_iff (by omega)).1 le
    omega
  · exact (ordered.knot_lt_iff (by omega)).2 (by omega)

/-- Arguments between two bounds that hold the stretch of the knots between these. -/
theorem Follows.mem_of_bounds (follows : Follows U P F) (ordered : U.Ordered)
    (size : U.size = P.length + p + 1)
    (blend : ∀ a x y, 0 ≤ a → a ≤ 1 → Q x → Q y → Q (Point.blend a x y)) (all : ∀ x ∈ P, Q x)
    {i : Nat} (hp : p ≤ i) (hi : i < P.length) {t : K} (low : U.knot i < t)
    (high : t < U.knot (i + 1)) {x₀ x₁ : K} (first : U.knot 0 ≤ x₀) (before : x₀ ≤ t)
    (after : t ≤ x₁) (last : U.countBelow x₁ < U.size) {X : Multiset K} (card : X.card = p)
    (bounds : ∀ x ∈ X, x₀ ≤ x ∧ x ≤ x₁)
    (inner : stretch U.knot (U.countUpTo x₀) (U.countBelow x₁ - U.countUpTo x₀) ≤ X) :
    Q (Point.ofVec (F t X)) := by
  have start : 0 < U.countUpTo x₀ := (ordered.knot_le_iff (by omega)).1 first
  have left : U.countUpTo x₀ ≤ i + 1 := by
    by_contra late
    have := (ordered.knot_le_iff (u := x₀) (show i + 1 < U.size by omega)).2 (by omega)
    exact absurd (le_trans this before) (not_le.2 high)
  have right : i < U.countBelow x₁ :=
    (ordered.knot_lt_iff (by omega)).1 (lt_of_lt_of_le low after)
  obtain ⟨Y, rfl⟩ := Multiset.le_iff_exists_add.1 inner
  rw [Multiset.card_add, card_stretch] at card
  obtain ⟨l, hl⟩ : ∃ l, U.countUpTo x₀ = l + 1 := ⟨U.countUpTo x₀ - 1, by omega⟩
  rw [hl, add_comm]
  refine follows.mem_of_stretch ordered size blend all hp hi low high (by omega) (by omega)
    (by omega) fun y hy => ?_
  have within := bounds y (Multiset.mem_add.2 (Or.inr hy))
  refine ⟨le_trans ((ordered.knot_le_iff (by omega)).2 (by omega)) within.1,
    le_trans within.2 (not_lt.1 fun lt => ?_)⟩
  have := (ordered.knot_lt_iff (by omega)).1 lt
  omega

/-- **Arguments that hold all knots between them and the piece give a point of the hull.** -/
theorem Follows.mem_of_count (follows : Follows U P F) (ordered : U.Ordered)
    (size : U.size = P.length + p + 1)
    (blend : ∀ a x y, 0 ≤ a → a ≤ 1 → Q x → Q y → Q (Point.blend a x y)) (all : ∀ x ∈ P, Q x)
    {t : K} (inside : Inside U p P.length t) {X : Multiset K} (card : X.card = p)
    (knots : ∀ x ∈ X, x ∈ U.values)
    (held : ∀ x ∈ X, ∀ z ∈ U.values, x < z ∧ z < t ∨ t < z ∧ z < x → U.count z ≤ X.count z) :
    Q (Point.ofVec (F t X)) := by
  obtain ⟨i, hp, hi, low, high⟩ := inside
  -- the outermost of the arguments and the parameter
  obtain ⟨x₀, mem₀, least⟩ := (t ::ₘ X).toFinset.exists_min_image id ⟨t, by simp⟩
  obtain ⟨x₁, mem₁, greatest⟩ := (t ::ₘ X).toFinset.exists_max_image id ⟨t, by simp⟩
  rw [Multiset.mem_toFinset, Multiset.mem_cons] at mem₀ mem₁
  simp only [Multiset.mem_toFinset, Multiset.mem_cons, id_eq, forall_eq_or_imp] at least greatest
  have first : U.knot 0 ≤ x₀ := by
    rcases mem₀ with rfl | mem
    · exact le_trans (ordered.knot_le (Nat.zero_le i) (by omega)) low.le
    · obtain ⟨r, hr, rfl⟩ := KnotVector.exists_knot_of_mem (knots x₀ mem)
      exact ordered.knot_le (Nat.zero_le r) hr
  have last : x₁ ≤ U.knot (U.size - 1) := by
    rcases mem₁ with rfl | mem
    · exact le_trans high.le (ordered.knot_le (by omega) (by omega))
    · obtain ⟨r, hr, rfl⟩ := KnotVector.exists_knot_of_mem (knots x₁ mem)
      exact ordered.knot_le (by omega) (by omega)
  have finish : U.countBelow x₁ < U.size := by
    by_contra beyond
    exact absurd ((ordered.knot_lt_iff (by omega)).2 (by omega)) (not_lt.2 last)
  refine follows.mem_of_bounds ordered size blend all hp hi low high first least.1 greatest.1
    finish card (fun x hx => ⟨least.2 x hx, greatest.2 x hx⟩)
    (ordered.stretch_between_le finish.le fun z hz above below => ?_)
  rcases lt_trichotomy z t with side | rfl | side
  · refine held x₀ (mem₀.resolve_left ?_) z hz (Or.inl ⟨above, side⟩)
    rintro rfl
    exact lt_asymm above side
  · -- no knot lies in the span of the parameter
    obtain ⟨r, hr, rfl⟩ := KnotVector.exists_knot_of_mem hz
    have := ordered.lt_of_knot_lt (show i < U.size by omega) low
    have := ordered.lt_of_knot_lt hr high
    omega
  · refine held x₁ (mem₁.resolve_left ?_) z hz (Or.inr ⟨side, below⟩)
    rintro rfl
    exact lt_asymm below side

/-! ## §3. Raised control points. -/

open Spline (Clamped raisedKnots ActsRightly)

omit [IsStrictOrderedRing K] in
/-- Raising repeats knots and adds no other. -/
theorem Spline.mem_of_mem_raised {x : K} (h : x ∈ (raisedKnots U inc).values) : x ∈ U.values := by
  obtain ⟨m, hm, copy⟩ := List.mem_flatMap.1 h
  rw [Spline.breaks_eq] at hm
  rw [List.eq_of_mem_replicate copy]
  exact KnotVector.knot_mem_of_mem_runs hm

namespace Spline.Clamped

variable {a b : K} {ms : List (KnotMultiplicity K)}

omit [IsStrictOrderedRing K] in
/-- A stretch of raised knots next to the span of `t` holds each knot between one of its own and
`t` as often as it is raised. -/
theorem count_le_of_between (h : Clamped p U a b ms) {t x z : K} {j : Nat}
    (before : ∀ y ∈ (raisedKnots U inc).values.take (j + 1), y < t)
    (after : ∀ y ∈ (raisedKnots U inc).values.drop (j + 1 + (p + inc)), t < y)
    (hx : x ∈ ((raisedKnots U inc).values.drop (j + 1)).take (p + inc)) (hz : z ∈ U.values)
    (between : x < z ∧ z < t ∨ t < z ∧ z < x) :
    U.count z + inc ≤ (((raisedKnots U inc).values.drop (j + 1)).take (p + inc)).count z := by
  have ordered : (raisedKnots U inc).values.Pairwise (· ≤ ·) := h.raised.ordered
  rw [← List.take_append_drop (j + 1) (raisedKnots U inc).values, List.pairwise_append] at ordered
  obtain ⟨-, ordered, earlier⟩ := ordered
  rw [← List.take_append_drop (p + inc) ((raisedKnots U inc).values.drop (j + 1)),
      List.pairwise_append, List.drop_drop] at ordered
  obtain ⟨-, -, later⟩ := ordered
  refine h.count_le_raised hz (fun early => ?_) fun late => ?_
  · rcases between with ⟨above, -⟩ | ⟨behind, -⟩
    · exact absurd (earlier z early x (List.mem_of_mem_take hx)) (not_le.2 above)
    · exact lt_asymm (before z early) behind
  · rcases between with ⟨-, ahead⟩ | ⟨-, below⟩
    · exact lt_asymm (after z late) ahead
    · exact absurd (later x hx z late) (not_le.2 below)

/-- **Raised points that act rightly lie in the hull of the points.** -/
theorem inHull_raised (h : Clamped p U a b ms) (size : U.size = P.length + p + 1)
    (follows : Follows U P F) {points : List (Point K)}
    (acts : ActsRightly U P.length p (p + inc) (fun t => (F t).elevate inc)
      (raisedKnots U inc).values points)
    (size' : (raisedKnots U inc).size = points.length + (p + inc) + 1) :
    Curve.InHull P points := by
  intro Q blend all x hx
  obtain ⟨j, hj, rfl⟩ := List.mem_iff_getElem.1 hx
  obtain ⟨t, inside, before, after, value⟩ := acts j hj
  rw [List.getD_eq_getElem _ _ hj] at value
  have length : (((raisedKnots U inc).values.drop (j + 1)).take (p + inc)).length = p + inc := by
    rw [List.length_take, List.length_drop]
    change (raisedKnots U inc).values.length = _ at size'
    omega
  -- one choice of arguments leaves out `inc` of them
  have each : ∀ u ≤ (((raisedKnots U inc).values.drop (j + 1)).take (p + inc) : Multiset K),
      u.card = p → Q (Point.ofVec (F t u)) := by
    intro u le card
    have member : ∀ x ∈ u, x ∈ ((raisedKnots U inc).values.drop (j + 1)).take (p + inc) :=
      fun x hx => Multiset.mem_coe.1 (Multiset.mem_of_le le hx)
    refine follows.mem_of_count h.ordered size blend all inside card (fun x hx => ?_) ?_
    · exact mem_of_mem_raised (List.mem_of_mem_drop (List.mem_of_mem_take (member x hx)))
    · intro x hx z hz between
      have held := h.count_le_of_between before after (member x hx) hz between
      obtain ⟨v, same⟩ := Multiset.le_iff_exists_add.1 le
      have few := Multiset.count_le_card z v
      have cards := congrArg Multiset.card same
      have counts := congrArg (Multiset.count z) same
      rw [Multiset.coe_card, length, Multiset.card_add, card] at cards
      rw [Multiset.coe_count, Multiset.count_add] at counts
      omega
  rw [value]
  show Q (Point.ofVec ((F t).elevate inc _))
  have count : ((p + inc).choose p : K)
      = (((((raisedKnots U inc).values.drop (j + 1)).take (p + inc) : Multiset K).powersetCard
          p).map (F t)).card := by
    rw [Multiset.card_map, Multiset.card_powersetCard, Multiset.coe_card, length]
  rw [PolarForm.elevate_apply, PolarForm.choices, count]
  refine PolarForm.mem_mean blend ?_ fun v hv => ?_
  · rw [← Multiset.card_pos, Multiset.card_map, Multiset.card_powersetCard, Multiset.coe_card,
        length]
    exact Nat.choose_pos (Nat.le_add_right p inc)
  · obtain ⟨u, hu, rfl⟩ := Multiset.mem_map.1 hv
    obtain ⟨le, card⟩ := Multiset.mem_powersetCard.1 hu
    exact each u le card

end Spline.Clamped

namespace Curve

/-! ## §4. Raised curves. -/

variable {c e : Curve K}

omit [IsStrictOrderedRing K] in
/-- Raised curves have full ends. -/
theorem RaisedShape.ended {target : Nat} (shape : RaisedShape c target e) (h : c.Regular)
    (above : c.order < target) : e.Ended := by
  have two := h.two_le_order
  have degree : e.degree = target - 1 := by rw [Curve.degree, shape.order]
  refine (shape.sound.ended_of_values h.domain_lt (degree.symm ▸ shape.knots) ?_ fun u => ?_).1
  · intro x hx
    obtain ⟨m, hm, copy⟩ := List.mem_flatMap.1 hx
    rw [List.eq_of_mem_replicate copy]
    exact between_of_mem_interior (KnotVector.knot_mem_of_mem_runs hm)
  · have ordered : c.interior.Pairwise (· ≤ ·) := h.ordered.filter _
    have distinct : ((KnotVector.runs c.interior).map
        (KnotMultiplicity.raise (target - c.order))).Pairwise fun m m' => m.knot ≠ m'.knot :=
      List.pairwise_map.2 ((KnotVector.pairwise_runs ordered).imp fun lt => ne_of_lt lt)
    have raised := KnotVector.count_flatMap_le (n := e.degree) distinct ?_ u
    · rwa [List.flatMap_map] at raised
    · intro m' hm'
      obtain ⟨m, hm, rfl⟩ := List.mem_map.1 hm'
      have few : m.multiplicity ≤ c.order - 1 := by
        rw [← KnotVector.count_of_mem_runs ordered hm]
        exact le_trans (List.filter_sublist.count_le m.knot)
          (KnotVector.count_eq_list_count c.knots m.knot ▸ h.count_le m.knot)
      show m.multiplicity + (target - c.order) ≤ e.degree
      omega

/-- Where every knot stands for itself, the raised points are means of values of the forms, and
their weights stay positive. -/
theorem Prepared.positive {b : Curve K} {inc : Nat} (prepared : Prepared c b) (h : c.Regular) :
    (b.raisedWith inc (raisedVectors c b inc fun _ => 0)).points.Positive := by
  obtain ⟨size, -⟩ := prepared.fits inc fun _ => 0
  obtain ⟨F, follows⟩ := prepared.sound.exists_follows rfl rfl
  have two := prepared.sound.two_le_order
  have degree : b.degree = b.order - 1 := rfl
  have hull := prepared.clamped.inHull_raised (size_padded_knots prepared.sound) follows
    (prepared.clamped.actsRightly (by omega) (size_padded_knots prepared.sound)
      prepared.sound.sized follows) size
  have positive : b.points.Positive := prepared.keeps.positive h.toSound h.positive
  exact ControlPoints.positive_withVectors fun rational =>
    hull.weight_pos prepared.sound.sized (positive rational)

variable [Precision K] [Precision.Exact K]

/-- What raising the order gives: the same curve, or a valid one in its new shape. -/
theorem raiseOrder_eq_ok {target : Nat} (ok : c.raiseOrder target = .ok e) :
    e = c ∧ target = c.order
      ∨ c.isValid = true ∧ c.order < target ∧ target ≤ maxOrder ∧ RaisedShape c target e := by
  have bounds := ok
  unfold Curve.raiseOrder at bounds
  split_ifs at bounds with outside same
  · cases bounds
    exact .inl ⟨rfl, same⟩
  · obtain ⟨⟨⟩, validated, -⟩ := bind_eq_ok bounds
    have valid := Curve.validate_eq_ok_iff.1 validated
    have regular := regular_of_isValid valid
    obtain ⟨b, prepared⟩ := regular.prepared
    have above : c.order < target := by omega
    have shape := prepared.raisedShape regular above fun front =>
      b.degree + (target - c.order) - front.added
    cases (prepared.raiseOrder_eq valid above (by omega)).symm.trans ok
    exact .inr ⟨valid, above, by omega, shape⟩

/-- **Raising the order keeps a curve sound.** -/
theorem Sound.raiseOrder (h : c.Sound) {target : Nat} (ok : c.raiseOrder target = .ok e) :
    e.Sound := by
  obtain ⟨rfl, -⟩ | ⟨-, -, -, shape⟩ := raiseOrder_eq_ok ok
  · exact h
  · exact shape.sound

/-- **Where the values stay, raising the order keeps a curve regular.** -/
theorem Regular.raiseOrder (h : c.Regular) {target : Nat} (clear : ¬c.Overreaches target)
    (ok : c.raiseOrder target = .ok e) : e.Regular := by
  obtain ⟨rfl, -⟩ | ⟨valid, above, within, -⟩ := raiseOrder_eq_ok ok
  · exact h
  obtain ⟨b, prepared⟩ := h.prepared
  have two := h.two_le_order
  have degree : b.degree = c.order - 1 := prepared.keeps.degree
  have twelve : maxOrder = 12 := rfl
  have vectors : raisedVectors c b (target - c.order) _ = raisedVectors c b (target - c.order) _ :=
    prepared.raisedVectors_eq (by omega) (by omega)
      fun ⟨ten, one, pair⟩ => clear ⟨by omega, by omega, pair⟩
  have result := prepared.raiseOrder_eq valid above within
  have shape := prepared.raisedShape h above fun front =>
    b.degree + (target - c.order) - front.added
  rw [vectors] at result shape
  cases result.symm.trans ok
  exact (shape.ended h above).regular (shape.dimension ▸ h.dimension_pos) (prepared.positive h)

end Curve

end RationalSpline
