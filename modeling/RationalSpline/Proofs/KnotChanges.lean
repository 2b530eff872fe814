/-
  RationalSpline.Proofs.KnotChanges
  ─────────────────────────────────
  OTHER KNOTS UNDER THE SAME CONTROL POINTS.

  A knot that is set stays between its neighbours, uniform knots increase by their
  spacing, and a map that increases on the knots keeps their order and their
  repetitions.  The first keeps a curve sound, the other two keep it regular.
-/
import RationalSpline.Proofs.ControlPolygon
import RationalSpline.Proofs.Pieces

namespace RationalSpline

variable {K : Type} [Field K] [LinearOrder K]

/-! ## §1. Lists of knots. -/

namespace KnotVector

variable {U : KnotVector K} {f : K → K}

theorem knot_map (f : K → K) (U : KnotVector K) {i : Nat} (h : i < U.size) :
    (U.map f).knot i = f (U.knot i) := by
  have h' : i < (U.map f).values.length := by
    show i < (U.map f).size
    rwa [size_map]
  rw [knot_eq_getElem U h, knot_eq_getElem _ h']
  exact List.getElem_map f

theorem Ordered.map (h : U.Ordered) (mono : ∀ a ∈ U.values, ∀ b ∈ U.values, a ≤ b → f a ≤ f b) :
    (U.map f).Ordered :=
  List.pairwise_map.2 (h.imp_of_mem fun ha hb le => mono _ ha _ hb le)

/-- Distinct knots stay distinct, so no number is repeated more often than before. -/
theorem count_map_le {p : Nat} (count : ∀ u, U.count u ≤ p)
    (strict : ∀ a ∈ U.values, ∀ b ∈ U.values, a < b → f a < f b) (u : K) :
    (U.map f).count u ≤ p := by
  by_cases member : ∃ k ∈ U.values, f k = u
  · obtain ⟨k, hk, rfl⟩ := member
    refine le_trans (le_of_eq ?_) (count k)
    rw [KnotVector.count, KnotVector.count, KnotVector.map, List.countP_map]
    refine List.countP_congr fun x hx => ?_
    simp only [Function.comp_apply, beq_iff_eq]
    refine ⟨fun same => ?_, congrArg f⟩
    rcases lt_trichotomy x k with lt | same' | gt
    · exact absurd same (ne_of_lt (strict x hx k hk lt))
    · exact same'
    · exact absurd same (ne_of_gt (strict k hk x hx gt))
  · have none : (U.map f).count u = 0 := by
      rw [count_eq_list_count, List.count_eq_zero]
      rintro hu
      obtain ⟨k, hk, same⟩ := List.mem_map.1 hu
      exact member ⟨k, hk, same⟩
    omega

/-- Where no `p + 1` knots in a row agree, no number is repeated more often than `p` times. -/
theorem Ordered.count_le_of_lt (h : U.Ordered) {p : Nat}
    (apart : ∀ i, i + p < U.size → U.knot i < U.knot (i + p)) (u : K) : U.count u ≤ p := by
  by_contra many
  have split := countUpTo_eq U u
  have size := countUpTo_le_size U u
  have first := (h.knot_eq_iff (u := u) (i := U.countBelow u) (by omega)).2 ⟨le_refl _, by omega⟩
  have last := (h.knot_eq_iff (u := u) (i := U.countBelow u + p) (by omega)).2
    ⟨by omega, by omega⟩
  exact absurd (apart (U.countBelow u) (by omega)) (by rw [first, last]; exact lt_irrefl u)

/-- A knot between its neighbours keeps the order. -/
theorem Ordered.set (h : U.Ordered) {i : Nat} {v : K} (inside : i < U.size)
    (below : 0 < i → U.knot (i - 1) ≤ v) (above : i + 1 < U.size → v ≤ U.knot (i + 1)) :
    (⟨U.values.set i v⟩ : KnotVector K).Ordered := by
  have size : (⟨U.values.set i v⟩ : KnotVector K).size = U.size := List.length_set
  have read : ∀ j < U.size,
      (⟨U.values.set i v⟩ : KnotVector K).knot j = if i = j then v else U.knot j := by
    intro j hj
    rw [knot_eq_getElem _ (by rw [List.length_set]; exact hj), List.getElem_set,
        knot_eq_getElem U hj]
    rfl
  refine ordered_of_knot_le fun a b hab hb => ?_
  rw [size] at hb
  rw [read a (by omega), read b hb]
  split
  · next ha =>
      rw [if_neg (by omega)]
      exact le_trans (above (by omega)) (h.knot_le (by omega) hb)
  · split
    · next hb' => exact le_trans (h.knot_le (by omega) (by omega)) (below (by omega))
    · exact h.knot_le hab.le hb

end KnotVector

/-! ## §2. A curve on other knots. -/

namespace Curve

variable {c e : Curve K}

theorem Sound.withKnots (h : c.Sound) {U : KnotVector K} (size : U.size = c.knotCount)
    (ordered : U.Ordered) : Sound { c with knots := U } :=
  { h with
    knotCount_eq := size.trans h.knotCount_eq
    ordered }

/-- Knots whose first and last spans are not empty, and no more of which agree than the degree
says. -/
theorem Sound.regular_withKnots [IsStrictOrderedRing K] (h : c.Sound)
    (dimension : 1 ≤ c.dimension) (positive : c.points.Positive) {U : KnotVector K}
    (size : U.size = c.pointCount + c.order - 2) (ordered : U.Ordered)
    (first : U.knot (c.order - 2) < U.knot (c.order - 1))
    (last : U.knot (c.pointCount - 2) < U.knot (c.pointCount - 1))
    (count : ∀ u, U.count u ≤ c.order - 1) : Regular { c with knots := U } where
  toSound := h.withKnots (size.trans h.knotCount_eq.symm) ordered
  dimension_pos := dimension
  first_span := first
  last_span := last
  count_le := count
  weight_pos := ControlPoints.forall_weights_pos_iff.2 positive

/-- Knots under an increasing map. -/
def mapKnots (c : Curve K) (f : K → K) : Curve K := { c with knots := c.knots.map f }

theorem Sound.mapKnots (h : c.Sound) {f : K → K}
    (mono : ∀ a ∈ c.knots.values, ∀ b ∈ c.knots.values, a ≤ b → f a ≤ f b) :
    (c.mapKnots f).Sound :=
  h.withKnots (KnotVector.size_map f c.knots) (h.ordered.map mono)

theorem Sound.domain_mapKnots (h : c.Sound) (f : K → K) :
    (c.mapKnots f).domain = (f c.domain.1, f c.domain.2) := by
  obtain ⟨order, points, size, degree⟩ := h.counts
  refine Prod.ext (KnotVector.knot_map f _ (show c.order - 2 < c.knots.size by omega)) ?_
  show (c.knots.map f).knot ((c.knots.map f).size + 1 - c.order) = _
  rw [KnotVector.size_map]
  exact KnotVector.knot_map f _ (show c.knots.size + 1 - c.order < c.knots.size by omega)

theorem Regular.mapKnots [IsStrictOrderedRing K] (h : c.Regular) {f : K → K}
    (strict : ∀ a ∈ c.knots.values, ∀ b ∈ c.knots.values, a < b → f a < f b) :
    (c.mapKnots f).Regular := by
  obtain ⟨order, points, size, degree⟩ := h.counts
  have mono : ∀ a ∈ c.knots.values, ∀ b ∈ c.knots.values, a ≤ b → f a ≤ f b := by
    intro a ha b hb le
    rcases lt_or_eq_of_le le with lt | rfl
    · exact (strict a ha b hb lt).le
    · exact le_refl _
  have less : ∀ i j, i < c.knots.size → j < c.knots.size → c.knots.knot i < c.knots.knot j →
      (c.knots.map f).knot i < (c.knots.map f).knot j := by
    intro i j hi hj lt
    rw [KnotVector.knot_map f _ hi, KnotVector.knot_map f _ hj]
    exact strict _ (c.knots.knot_mem hi) _ (c.knots.knot_mem hj) lt
  exact h.toSound.regular_withKnots h.dimension_pos h.positive
    ((KnotVector.size_map f c.knots).trans size) (h.ordered.map mono)
    (less _ _ (by omega) (by omega) h.first_span) (less _ _ (by omega) (by omega) h.last_span)
    (KnotVector.count_map_le h.count_le strict)

/-! ## §3. A single knot. -/

/-- **A knot that is set stays between its neighbours.** -/
theorem Sound.setKnot [Precision K] (h : c.Sound) {i : Nat} {v : K}
    (ok : c.setKnot i v = .ok e) : e.Sound := by
  obtain ⟨_, index, ok⟩ := bind_eq_ok ok
  split at ok
  · cases ok
  · next fits =>
      cases ok
      have inside := checkIndex_eq_ok index
      simp only [not_or, not_and, not_lt] at fits
      exact h.withKnots List.length_set (h.ordered.set inside fits.1 fits.2.1)

/-! ## §4. Uniform knots. -/

section Uniform

variable {n order : Nat} {delta : K}

theorem knot_clampedUniform {i : Nat} (h : i < n + order - 2) :
    (KnotVector.clampedUniform order n delta).knot i
      = delta * ((min (i - (order - 2)) (n - order + 1) : Nat) : K) := by
  have inside : i < (KnotVector.clampedUniform order n delta).values.length := by
    show i < (KnotVector.clampedUniform order n delta).size
    rwa [KnotVector.size_clampedUniform]
  rw [KnotVector.knot_eq_getElem _ inside]
  simp only [KnotVector.clampedUniform, List.getElem_map, List.getElem_range]

theorem knot_periodicUniform {i : Nat} (h : i < n + order - 2) :
    (KnotVector.periodicUniform order n delta).knot i
      = delta * ((i : K) - ((order - 2 : Nat) : K)) := by
  have inside : i < (KnotVector.periodicUniform order n delta).values.length := by
    show i < (KnotVector.periodicUniform order n delta).size
    rwa [KnotVector.size_periodicUniform]
  rw [KnotVector.knot_eq_getElem _ inside]
  simp only [KnotVector.periodicUniform, List.getElem_map, List.getElem_range]

theorem checkSpacing_eq_ok {α : Type} [Scalar α] [Precision α] {delta : α} {r : Unit}
    (h : checkSpacing delta = .ok r) :
    0 < delta := by
  unfold checkSpacing at h
  split at h
  · next spacing => exact spacing.1
  · cases h

variable [IsStrictOrderedRing K]

/-- The knots increase with the steps they count. -/
theorem knot_clampedUniform_lt (pos : 0 < delta) {i j : Nat} (hi : i < n + order - 2)
    (hj : j < n + order - 2)
    (steps : min (i - (order - 2)) (n - order + 1) < min (j - (order - 2)) (n - order + 1)) :
    (KnotVector.clampedUniform order n delta).knot i
      < (KnotVector.clampedUniform order n delta).knot j := by
  rw [knot_clampedUniform hi, knot_clampedUniform hj]
  exact mul_lt_mul_of_pos_left (by exact_mod_cast steps) pos

theorem knot_periodicUniform_lt (pos : 0 < delta) {i j : Nat} (hij : i < j)
    (hj : j < n + order - 2) :
    (KnotVector.periodicUniform order n delta).knot i
      < (KnotVector.periodicUniform order n delta).knot j := by
  rw [knot_periodicUniform (by omega), knot_periodicUniform hj]
  have steps : (i : K) < j := by exact_mod_cast hij
  exact mul_lt_mul_of_pos_left (sub_lt_sub_right steps _) pos

theorem ordered_clampedUniform (pos : 0 < delta) :
    (KnotVector.clampedUniform order n delta).Ordered := by
  refine KnotVector.ordered_of_knot_le fun i j hij hj => ?_
  rw [KnotVector.size_clampedUniform] at hj
  rw [knot_clampedUniform (by omega), knot_clampedUniform hj]
  have steps : min (i - (order - 2)) (n - order + 1) ≤ min (j - (order - 2)) (n - order + 1) := by
    omega
  exact mul_le_mul_of_nonneg_left (by exact_mod_cast steps) pos.le

theorem ordered_periodicUniform (pos : 0 < delta) :
    (KnotVector.periodicUniform order n delta).Ordered :=
  KnotVector.ordered_of_knot_le fun i j hij hj =>
    (knot_periodicUniform_lt pos hij (by rwa [KnotVector.size_periodicUniform] at hj)).le

/-- Clamped uniform knots have a first and a last span, and repeat the ends as often as the
degree says. -/
theorem Sound.regular_clampedUniform (h : c.Sound) (dimension : 1 ≤ c.dimension)
    (positive : c.points.Positive) (pos : 0 < delta) :
    Regular { c with knots := KnotVector.clampedUniform c.order c.pointCount delta } := by
  have two := h.two_le_order
  have enough := h.order_le
  refine h.regular_withKnots dimension positive (KnotVector.size_clampedUniform _ _ _)
    (ordered_clampedUniform pos) (knot_clampedUniform_lt pos (by omega) (by omega) (by omega))
    (knot_clampedUniform_lt pos (by omega) (by omega) (by omega))
    ((ordered_clampedUniform pos).count_le_of_lt fun i hi => ?_)
  rw [KnotVector.size_clampedUniform] at hi
  exact knot_clampedUniform_lt pos (by omega) (by omega) (by omega)

/-- Equally spaced knots are all distinct. -/
theorem Sound.regular_periodicUniform (h : c.Sound) (dimension : 1 ≤ c.dimension)
    (positive : c.points.Positive) (pos : 0 < delta) :
    Regular { c with knots := KnotVector.periodicUniform c.order c.pointCount delta } := by
  have two := h.two_le_order
  have enough := h.order_le
  refine h.regular_withKnots dimension positive (KnotVector.size_periodicUniform _ _ _)
    (ordered_periodicUniform pos) (knot_periodicUniform_lt pos (by omega) (by omega))
    (knot_periodicUniform_lt pos (by omega) (by omega))
    ((ordered_periodicUniform pos).count_le_of_lt fun i hi => ?_)
  rw [KnotVector.size_periodicUniform] at hi
  exact knot_periodicUniform_lt pos (by omega) (by omega)

end Uniform

/-- What uniform knots can be. -/
theorem makeUniform_eq_ok [Precision K] {delta : K} {clamped : Bool}
    (ok : c.makeUniform delta clamped = .ok e) : 0 < delta
      ∧ (e = { c with knots := KnotVector.clampedUniform c.order c.pointCount delta }
        ∨ e = { c with knots := KnotVector.periodicUniform c.order c.pointCount delta }) := by
  obtain ⟨_, spacing, ok⟩ := bind_eq_ok ok
  refine ⟨checkSpacing_eq_ok spacing, ?_⟩
  split at ok
  · cases ok
    exact .inr rfl
  · split at ok
    · cases ok
      exact .inl rfl
    · cases ok

variable [IsStrictOrderedRing K]

theorem Sound.makeUniform [Precision K] (h : c.Sound) {delta : K} {clamped : Bool}
    (ok : c.makeUniform delta clamped = .ok e) : e.Sound := by
  obtain ⟨pos, rfl | rfl⟩ := makeUniform_eq_ok ok
  · exact h.withKnots ((KnotVector.size_clampedUniform _ _ _).trans h.knotCount_eq.symm)
      (ordered_clampedUniform pos)
  · exact h.withKnots ((KnotVector.size_periodicUniform _ _ _).trans h.knotCount_eq.symm)
      (ordered_periodicUniform pos)

/-- **Uniform knots make every sound curve of positive weights regular.** -/
theorem Regular.makeUniform [Precision K] (h : c.Regular) {delta : K} {clamped : Bool}
    (ok : c.makeUniform delta clamped = .ok e) : e.Regular := by
  obtain ⟨pos, rfl | rfl⟩ := makeUniform_eq_ok ok
  · exact h.toSound.regular_clampedUniform h.dimension_pos h.positive pos
  · exact h.toSound.regular_periodicUniform h.dimension_pos h.positive pos

/-! ## §5. The domain. -/

/-- The map that sends the interval `source` to the interval `target`. -/
def affineMap (source target : K × K) (k : K) : K :=
  target.1 + (k - source.1) * ((target.2 - target.1) / (source.2 - source.1))

theorem affineMap_lt {source target : K × K} (hs : source.1 < source.2)
    (ht : target.1 < target.2) {a b : K} (lt : a < b) :
    affineMap source target a < affineMap source target b := by
  have slope : 0 < (target.2 - target.1) / (source.2 - source.1) :=
    div_pos (sub_pos.2 ht) (sub_pos.2 hs)
  unfold affineMap
  nlinarith

/-- Without rounding the ends of the interval are no exceptions. -/
theorem remap_eq_map (U : KnotVector K) {source target : K × K} (hs : source.1 < source.2) :
    U.remap source target = U.map (affineMap source target) := by
  refine congrArg KnotVector.mk (List.map_congr_left fun k _ => ?_)
  have length : source.2 - source.1 ≠ 0 := (sub_pos.2 hs).ne'
  unfold affineMap
  split
  · next first =>
      rw [eq_of_beq first]
      simp
  · split
    · next last =>
        rw [eq_of_beq last, mul_div_cancel₀ _ length]
        ring
    · rfl

/-- What a moved domain is. -/
theorem setDomain_eq_ok {t0 t1 : K} (ok : c.setDomain t0 t1 = .ok e)
    (domain : c.domain.1 < c.domain.2) :
    t0 < t1 ∧ (e = c ∨ e = c.mapKnots (affineMap c.domain (t0, t1))) := by
  unfold setDomain at ok
  split at ok
  · next lt =>
      refine ⟨lt, ?_⟩
      split at ok
      · cases ok
        exact .inl rfl
      · cases ok
        rw [remap_eq_map _ domain]
        exact .inr rfl
  · cases ok

theorem Sound.setDomain (h : c.Sound) (domain : c.domain.1 < c.domain.2) {t0 t1 : K}
    (ok : c.setDomain t0 t1 = .ok e) : e.Sound := by
  obtain ⟨lt, rfl | rfl⟩ := setDomain_eq_ok ok domain
  · exact h
  · refine h.mapKnots fun a _ b _ le => ?_
    rcases lt_or_eq_of_le le with lt' | rfl
    · exact (affineMap_lt domain lt lt').le
    · exact le_refl _

/-- **Moving the domain keeps the repetitions of the knots.** -/
theorem Regular.setDomain (h : c.Regular) {t0 t1 : K} (ok : c.setDomain t0 t1 = .ok e) :
    e.Regular := by
  obtain ⟨lt, rfl | rfl⟩ := setDomain_eq_ok ok h.domain_lt
  · exact h
  · exact h.mapKnots fun a _ b _ lt' => affineMap_lt h.domain_lt lt lt'

end Curve

end RationalSpline
