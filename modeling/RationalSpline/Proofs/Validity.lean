/-
  RationalSpline.Proofs.Validity
  ──────────────────────────────
  WHAT VALIDITY ADDS TO REGULARITY.

  The validity check counts knots in groups: a knot joins a group while it stays within
  the spacing of the numbers from the first knot of the group.  All edits count equal
  knots.  A regular curve is valid exactly if no group is larger than the degree, and
  none is where one knot more than the degree spread over more than the spacing.
-/
import RationalSpline.Proofs.KnotChanges

namespace RationalSpline

variable {K : Type} [Field K] [LinearOrder K] [Precision K]

/-! ## §1. Groups. -/

namespace KnotVector

/-- From the index `i` on stand the members of a group: its first knot, and knots near it. -/
def StandsAt (all : List K) (m : KnotMultiplicity K) (i : Nat) : Prop :=
  all.getD i 0 = m.knot
    ∧ ∀ r < m.multiplicity, |all.getD (i + r) 0 - m.knot| ≤ Precision.epsilon

/-- The members of a group stand in a row. -/
theorem standsAt_of_mem_groupFrom [IsStrictOrderedRing K] [Precision.Exact K]
    {before values : List K} {g m : KnotMultiplicity K} {i : Nat}
    (first : StandsAt (before ++ values) g i) (upTo : i + g.multiplicity = before.length)
    (hm : m ∈ groupFrom g values) :
    ∃ j, j + m.multiplicity ≤ (before ++ values).length ∧ StandsAt (before ++ values) m j := by
  induction values generalizing g before i with
  | nil =>
      obtain rfl := List.mem_singleton.1 hm
      exact ⟨i, by simp [upTo], first⟩
  | cons k ks ih =>
      have next : (before ++ k :: ks).getD before.length 0 = k := by
        simp [List.getD_eq_getElem?_getD]
      have whole : before ++ [k] ++ ks = before ++ k :: ks := by simp
      unfold groupFrom at hm
      split at hm
      · rcases List.mem_cons.1 hm with rfl | hm
        · refine ⟨i, ?_, first⟩
          rw [List.length_append]
          omega
        · -- `k` begins a group of its own
          have single : StandsAt (before ++ [k] ++ ks) ⟨k, 1⟩ before.length := by
            rw [whole]
            refine ⟨next, fun r hr => ?_⟩
            obtain rfl : r = 0 := Nat.lt_one_iff.1 hr
            rw [Nat.add_zero, next, sub_self, abs_zero]
            exact Precision.Exact.epsilon_nonneg
          have later := ih single (by simp) hm
          rwa [whole] at later
      · next near =>
          have longer : StandsAt (before ++ [k] ++ ks) g.increment i := by
            rw [whole]
            refine ⟨first.1, fun r hr => ?_⟩
            rw [KnotMultiplicity.multiplicity_increment] at hr
            by_cases old : r < g.multiplicity
            · exact first.2 r old
            · obtain rfl : r = g.multiplicity := by omega
              rw [upTo, next, ← Scalar.abs_eq]
              exact not_lt.1 near
          have later := ih longer (by simp [← upTo, Nat.add_assoc]) hm
          rwa [whole] at later

/-- A group with which knots near its first one begin has all of these. -/
theorem exists_le_of_near [IsStrictOrderedRing K] {g : KnotMultiplicity K} {values : List K}
    {n : Nat} (inside : n ≤ values.length)
    (near : ∀ r < n, |values.getD r 0 - g.knot| ≤ Precision.epsilon) :
    ∃ m ∈ groupFrom g values, g.multiplicity + n ≤ m.multiplicity := by
  induction values generalizing g n with
  | nil =>
      obtain rfl : n = 0 := Nat.le_zero.1 inside
      exact ⟨g, by simp [groupFrom], le_rfl⟩
  | cons k ks ih =>
      unfold groupFrom
      split
      · next far =>
          refine ⟨g, List.mem_cons_self, ?_⟩
          rcases Nat.eq_zero_or_pos n with rfl | pos
          · rfl
          · have first := near 0 pos
            rw [List.getD_cons_zero, ← Scalar.abs_eq] at first
            exact absurd far (not_lt.2 first)
      · obtain ⟨m, hm, le⟩ := ih (g := g.increment) (n := n - 1)
          (by rw [List.length_cons] at inside; omega) fun r hr => by
            have later := near (r + 1) (by omega)
            rwa [List.getD_cons_succ] at later
        rw [KnotMultiplicity.multiplicity_increment] at le
        exact ⟨m, hm, by omega⟩

end KnotVector

/-! ## §2. Valid curves. -/

namespace Curve

/-- No group of knots within the spacing of the numbers is larger than the degree. -/
def Grouped (c : Curve K) : Prop := ∀ m ∈ c.knots.multiplicities, m.multiplicity ≤ c.degree

variable [Precision.Exact K] [IsStrictOrderedRing K] {c : Curve K}

/-- **Validity is regularity, with knots counted in groups.** -/
theorem isValid_iff_regular :
    c.isValid = true ↔ c.vectorSize < countLimit ∧ c.Regular ∧ c.Grouped := by
  refine ⟨fun valid => ?_, fun ⟨size, regular, groups⟩ => ?_⟩
  · obtain ⟨size, -, -, -, knots⟩ := isValid_iff_exact.1 valid
    refine ⟨size, regular_of_isValid valid, fun m hm => ?_⟩
    unfold knotDefect? at knots
    dsimp only at knots
    split_ifs at knots
    simp only [Option.map_eq_none_iff, List.find?_eq_none, decide_eq_true_eq, not_lt] at knots
    exact knots m hm
  · have dimension := regular.dimension_pos
    have order := regular.two_le_order
    have points := regular.order_le
    have count := regular.knotCount_eq
    refine isValid_iff_exact.2 ⟨size, ?_, regular.sized, regular.weight_pos, ?_⟩
    · unfold countDefect?
      dsimp only
      rw [if_neg (by omega), if_neg (by omega), if_neg (by omega), if_neg (by omega)]
    · have finite : c.knots.values.all Precision.isFinite = true :=
        List.all_eq_true.2 fun a _ => Precision.Exact.isFinite a
      have ordered := (KnotVector.isNonDecreasing_iff _).2 regular.ordered
      have none : c.knots.multiplicities.find? (fun m => decide (c.degree < m.multiplicity))
          = none :=
        List.find?_eq_none.2 fun m hm => by simpa using groups m hm
      unfold knotDefect?
      dsimp only
      rw [finite, ordered, if_neg (by simp), if_neg (by simp), if_neg (not_le.2 regular.first_span),
          if_neg (not_le.2 regular.last_span), none]
      rfl

/-- One knot more than the degree in a row spread over more than the spacing of the numbers. -/
def Spread (c : Curve K) : Prop := ∀ i, i + c.degree < c.knots.size →
  Precision.epsilon < c.knots.knot (i + c.degree) - c.knots.knot i

/-- **Knots that are spread are in no group larger than the degree.** -/
theorem Spread.grouped (h : c.Spread) : c.Grouped := by
  intro m hm
  obtain ⟨j, inside, start, near⟩ : ∃ j, j + m.multiplicity ≤ c.knots.values.length
      ∧ KnotVector.StandsAt c.knots.values m j := by
    unfold KnotVector.multiplicities at hm
    split at hm
    · cases hm
    · next k ks values =>
        have single : KnotVector.StandsAt ([k] ++ ks) ⟨k, 1⟩ 0 := by
          refine ⟨rfl, fun r hr => ?_⟩
          obtain rfl : r = 0 := Nat.lt_one_iff.1 hr
          simpa using Precision.Exact.epsilon_nonneg (K := K)
        rw [values]
        exact KnotVector.standsAt_of_mem_groupFrom single rfl hm
  by_contra large
  have far := h j (by show _ < c.knots.values.length; omega)
  have close := near c.degree (by omega)
  rw [← start] at close
  exact absurd ((le_abs_self _).trans close) (not_le.2 far)

omit [Precision.Exact K] in
/-- The first knots of a valid curve are spread. -/
theorem Grouped.first_spread (h : c.Grouped) (sound : c.Sound) :
    Precision.epsilon < c.knots.knot c.degree - c.knots.knot 0 := by
  obtain ⟨order, enough, size, degree⟩ := sound.counts
  have size : c.knots.values.length = c.pointCount + c.order - 2 := sound.knotCount_eq
  by_contra near
  obtain ⟨k, ks, values⟩ := List.exists_cons_of_length_pos (show 0 < c.knots.values.length by omega)
  have first : c.knots.knot 0 = k := by rw [KnotVector.knot, values, List.getD_cons_zero]
  have later : ∀ r, ks.getD r 0 = c.knots.knot (r + 1) := fun r => by
    rw [KnotVector.knot, values, List.getD_cons_succ]
  rw [values, List.length_cons] at size
  have close : ∀ r < c.degree, |ks.getD r 0 - k| ≤ Precision.epsilon := fun r hr => by
    have low := sound.ordered.knot_le (i := 0) (j := r + 1) (Nat.zero_le _) (by
      rw [KnotVector.size, values, List.length_cons]
      omega)
    have high := sound.ordered.knot_le (i := r + 1) (j := c.degree) hr (by
      rw [KnotVector.size, values, List.length_cons]
      omega)
    rw [later, ← first, abs_of_nonneg (sub_nonneg.2 low)]
    exact (sub_le_sub_right high _).trans (not_lt.1 near)
  have group : ∃ m ∈ KnotVector.groupFrom ⟨k, 1⟩ ks, 1 + c.degree ≤ m.multiplicity :=
    KnotVector.exists_le_of_near (by omega) close
  obtain ⟨m, hm, le⟩ := group
  have bound := h m (by
    unfold KnotVector.multiplicities
    rw [values]
    exact hm)
  omega

/-- **A regular curve with spread knots is valid.** -/
theorem Regular.isValid (h : c.Regular) (size : c.vectorSize < countLimit) (spread : c.Spread) :
    c.isValid = true :=
  isValid_iff_regular.2 ⟨size, h, spread.grouped⟩

end Curve

end RationalSpline
