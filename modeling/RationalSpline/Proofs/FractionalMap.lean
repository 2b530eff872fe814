/-
  RationalSpline.Proofs.FractionalMap
  ───────────────────────────────────
  CURVES UNDER LINEAR FRACTIONAL CHANGES OF PARAMETER.

  With a positive factor the map `u ↦ factor·u / ((factor - 1)·u + 1)` increases on
  `[0, 1]`, and its denominators are positive there.  A clamped curve has all knots in
  its domain, so the knots keep their order and the weights their sign.  Setting the
  weights of the ends adds a common factor of all vectors.
-/
import RationalSpline.Proofs.KnotChanges
import RationalSpline.Proofs.Regularity

namespace RationalSpline.Curve

variable {K : Type} [Field K] [LinearOrder K] {c e : Curve K}

/-! ## §1. The map. -/

/-- The denominator at `u`. -/
def fractionalDenominator (factor u : K) : K := (factor - 1) * u + 1

/-- The map on the domain of a curve. -/
def fractionalMap (factor : K) (domain : K × K) (k : K) : K :=
  let u := (k - domain.1) / (domain.2 - domain.1)
  domain.1 + (domain.2 - domain.1) * (factor * u / fractionalDenominator factor u)

section Map

variable [IsStrictOrderedRing K]

theorem fractionalDenominator_pos {factor u : K} (pos : 0 < factor) (low : 0 ≤ u) (high : u ≤ 1) :
    0 < fractionalDenominator factor u := by
  -- the denominator lies between its values at 0 and 1
  have mixed : fractionalDenominator factor u = factor * u + (1 - u) := by
    unfold fractionalDenominator
    ring
  rw [mixed]
  rcases eq_or_lt_of_le low with rfl | low
  · simp
  · have first := mul_pos pos low
    linarith

theorem fractionalMap_lt {factor : K} (pos : 0 < factor) {domain : K × K}
    (lt : domain.1 < domain.2) {a b : K} (ha : domain.1 ≤ a) (hab : a < b) (hb : b ≤ domain.2) :
    fractionalMap factor domain a < fractionalMap factor domain b := by
  have length : 0 < domain.2 - domain.1 := sub_pos.2 lt
  have place : ∀ k, domain.1 ≤ k → k ≤ domain.2 → 0 ≤ (k - domain.1) / (domain.2 - domain.1)
      ∧ (k - domain.1) / (domain.2 - domain.1) ≤ 1 := fun k low high =>
    ⟨div_nonneg (sub_nonneg.2 low) length.le,
      div_le_one_of_le₀ (sub_le_sub_right high _) length.le⟩
  obtain ⟨lowa, higha⟩ := place a ha (hab.le.trans hb)
  obtain ⟨lowb, highb⟩ := place b (ha.trans hab.le) hb
  have inner : (a - domain.1) / (domain.2 - domain.1) < (b - domain.1) / (domain.2 - domain.1) :=
    div_lt_div_of_pos_right (sub_lt_sub_right hab _) length
  have quotient : factor * ((a - domain.1) / (domain.2 - domain.1))
        / fractionalDenominator factor ((a - domain.1) / (domain.2 - domain.1))
      < factor * ((b - domain.1) / (domain.2 - domain.1))
        / fractionalDenominator factor ((b - domain.1) / (domain.2 - domain.1)) := by
    rw [div_lt_div_iff₀ (fractionalDenominator_pos pos lowa higha)
      (fractionalDenominator_pos pos lowb highb)]
    unfold fractionalDenominator
    nlinarith [mul_lt_mul_of_pos_left inner pos]
  exact add_lt_add_right (mul_lt_mul_of_pos_left quotient length) _

end Map

/-! ## §2. Knots and vectors under the map. -/

theorem knots_applyFractional (factor : K) (lt : c.domain.1 < c.domain.2) (nonzero : factor ≠ 0) :
    (c.applyFractional factor).knots = c.knots.map (fractionalMap factor c.domain) := by
  have length : c.domain.2 - c.domain.1 ≠ 0 := sub_ne_zero.2 (ne_of_gt lt)
  refine congrArg KnotVector.mk ?_
  show ((c.knots.values.zip (c.knots.values.map _)).map _) = _
  rw [List.map_zip_eq_zipWith, List.zipWith_map_right, List.zipWith_self]
  refine List.map_congr_left fun k _ => ?_
  show (if (k == c.domain.1 || k == c.domain.2) = true then k else _) = _
  unfold fractionalMap fractionalDenominator
  dsimp only
  split
  · next ends =>
      rcases Bool.or_eq_true_iff.1 ends with first | last
      · rw [eq_of_beq first]
        simp
      · rw [eq_of_beq last, div_self length, mul_one, mul_one, sub_add_cancel, div_self nonzero]
        ring
  · rfl

theorem pointCount_applyFractional (factor : K) :
    (c.applyFractional factor).pointCount = c.pointCount := by
  show ControlPoints.length (ControlPoints.withVectors _ (List.mapIdx _ c.points.vectors)) = _
  rw [ControlPoints.length_withVectors, List.length_mapIdx]
  rfl

/-- A control vector is scaled by the denominators at its knots. -/
theorem exists_scale_of_mem_applyFractional {factor : K} {x : Point K}
    (hx : x ∈ (c.applyFractional factor).points.vectors) :
    ∃ i < c.pointCount, x = Point.scale (c.points.vectors.getD i [])
      (fractionalFactor factor ((c.normalizedKnots.drop i).take c.degree)) := by
  change x ∈ (ControlPoints.withVectors _ (List.mapIdx _ c.points.vectors)).vectors at hx
  rw [ControlPoints.vectors_withVectors] at hx
  obtain ⟨i, hi, rfl⟩ := List.mem_mapIdx.1 hx
  exact ⟨i, hi, by rw [List.getD_eq_getElem _ _ hi]⟩

variable [IsStrictOrderedRing K]

theorem fractionalFactor_pos {factor : K} (pos : 0 < factor) {us : List K}
    (unit : ∀ u ∈ us, 0 ≤ u ∧ u ≤ 1) : 0 < fractionalFactor factor us := by
  suffices fold : ∀ acc : K, 0 < acc →
      0 < us.foldl (fun acc u => acc / ((factor - 1) * u + 1)) acc from fold 1 zero_lt_one
  induction us with
  | nil => exact fun _ h => h
  | cons u us ih =>
      intro acc h
      obtain ⟨low, high⟩ := unit u List.mem_cons_self
      exact ih (fun v hv => unit v (List.mem_cons_of_mem _ hv)) _
        (div_pos h (fractionalDenominator_pos pos low high))

/-- All knots lie in the domain. -/
def Within (c : Curve K) : Prop := ∀ k ∈ c.knots.values, c.domain.1 ≤ k ∧ k ≤ c.domain.2

theorem Within.normalized (h : c.Within) (lt : c.domain.1 < c.domain.2) :
    ∀ u ∈ c.normalizedKnots, 0 ≤ u ∧ u ≤ 1 := by
  intro u hu
  obtain ⟨k, hk, rfl⟩ := List.mem_map.1 hu
  obtain ⟨low, high⟩ := h k hk
  have length : 0 ≤ c.domain.2 - c.domain.1 := (sub_pos.2 lt).le
  exact ⟨div_nonneg (sub_nonneg.2 low) length,
    div_le_one_of_le₀ (sub_le_sub_right high _) length⟩

theorem positive_applyFractional (h : c.Within) (lt : c.domain.1 < c.domain.2) {factor : K}
    (pos : 0 < factor) (positive : c.points.Positive) :
    (c.applyFractional factor).points.Positive := by
  intro rational x hx
  change (c.points.withVectors _).isRational = true at rational
  rw [ControlPoints.isRational_withVectors] at rational
  obtain ⟨i, hi, rfl⟩ := exists_scale_of_mem_applyFractional hx
  rw [Point.weight_scale]
  refine mul_pos ?_ (fractionalFactor_pos pos fun u hu =>
    h.normalized lt u (List.mem_of_mem_drop (List.mem_of_mem_take hu)))
  rw [List.getD_eq_getElem _ _ hi]
  exact positive rational _ (List.getElem_mem _)

omit [IsStrictOrderedRing K] in
/-- The curve under the map is the curve with other vectors on the mapped knots. -/
theorem repointed_applyFractional (h : c.Sound) {factor : K} (pos : 0 < factor)
    (lt : c.domain.1 < c.domain.2) :
    Repointed (c.mapKnots (fractionalMap factor c.domain)) (c.applyFractional factor) := by
  refine ⟨rfl, rfl, knots_applyFractional factor lt pos.ne', pointCount_applyFractional factor,
    fun x hx => ?_⟩
  obtain ⟨i, hi, rfl⟩ := exists_scale_of_mem_applyFractional hx
  have same : (c.applyFractional factor).vectorSize = c.vectorSize := by
    simp only [vectorSize, isRational, applyFractional, ControlPoints.isRational_withVectors]
    rfl
  rw [Point.length_scale, List.getD_eq_getElem _ _ hi, same]
  exact h.sized _ (List.getElem_mem _)

theorem Sound.applyFractional (h : c.Sound) (within : c.Within) (lt : c.domain.1 < c.domain.2)
    {factor : K} (pos : 0 < factor) : (c.applyFractional factor).Sound := by
  refine (repointed_applyFractional h pos lt).sound (h.mapKnots fun a ha b hb le => ?_)
  rcases lt_or_eq_of_le le with lt' | rfl
  · exact (fractionalMap_lt pos lt (within a ha).1 lt' (within b hb).2).le
  · exact le_refl _

theorem Regular.applyFractional (h : c.Regular) (within : c.Within) {factor : K}
    (pos : 0 < factor) : (c.applyFractional factor).Regular :=
  (repointed_applyFractional h.toSound pos h.domain_lt).regular
    (h.mapKnots fun a ha b hb lt =>
      fractionalMap_lt pos h.domain_lt (within a ha).1 lt (within b hb).2)
    (positive_applyFractional within h.domain_lt pos h.positive)

/-! ## §3. Reparameterization. -/

/-- Clamped at both ends, a curve has no knots outside its domain. -/
theorem Sound.within_clampEnds (h : c.Sound) (lt : c.domain.1 < c.domain.2)
    (ok : c.clampEnds = .ok e) : e.Sound ∧ Keeps c e ∧ e.Within := by
  obtain ⟨e', ok', sound, keeps, -, -, values⟩ := h.clampEnds lt
  cases ok'.symm.trans ok
  refine ⟨sound, keeps, fun k hk => ?_⟩
  rw [keeps.domain]
  rw [values] at hk
  rcases List.mem_append.1 hk with hk | hk
  · rcases List.mem_append.1 hk with hk | hk
    · rw [List.eq_of_mem_replicate hk]
      exact ⟨le_refl _, lt.le⟩
    · have inside := of_decide_eq_true (List.mem_filter.1 hk).2
      exact ⟨inside.1.le, inside.2.le⟩
  · rw [List.eq_of_mem_replicate hk]
    exact ⟨lt.le, le_refl _⟩

omit [IsStrictOrderedRing K] in
/-- What reparameterization gives. -/
theorem reparameterize_eq_ok [Precision K] [Precision.Exact K] {factor : K}
    (ok : c.reparameterize factor = .ok e) : 0 < factor
      ∧ (e = c ∨ ∃ b, c.clampEnds = .ok b ∧ e = b.makeRational.applyFractional factor) := by
  unfold Curve.reparameterize at ok
  split at ok
  · next weight =>
      refine ⟨(Scalar.isWeight_iff factor).1 weight, ?_⟩
      split at ok
      · cases ok
        exact .inl rfl
      · cases clamped : c.clampEnds with
        | error e =>
            rw [clamped] at ok
            cases ok
        | ok b =>
            rw [clamped] at ok
            cases ok
            exact .inr ⟨b, rfl, rfl⟩
  · cases ok

theorem Sound.reparameterize [Precision K] [Precision.Exact K] (h : c.Sound)
    (lt : c.domain.1 < c.domain.2) {factor : K} (ok : c.reparameterize factor = .ok e) :
    e.Sound := by
  obtain ⟨pos, rfl | ⟨b, clamped, rfl⟩⟩ := reparameterize_eq_ok ok
  · exact h
  · obtain ⟨sound, keeps, within⟩ := h.within_clampEnds lt clamped
    exact sound.makeRational.applyFractional within (keeps.domain.symm ▸ lt) pos

/-- **A linear fractional change of parameter keeps a curve regular.** -/
theorem Regular.reparameterize [Precision K] [Precision.Exact K] (h : c.Regular) {factor : K}
    (ok : c.reparameterize factor = .ok e) : e.Regular := by
  obtain ⟨pos, rfl | ⟨b, clamped, rfl⟩⟩ := reparameterize_eq_ok ok
  · exact h
  · obtain ⟨-, -, within⟩ := h.toSound.within_clampEnds h.domain_lt clamped
    exact (h.regular_clampEnds clamped).makeRational.applyFractional within pos

/-! ## §4. End weights. -/

section EndWeights

variable [Precision K] [Precision.Exact K] [Analytic K]

omit [IsStrictOrderedRing K] in
/-- What setting the end weights does: nothing; or the curve is clamped and gets weights; or
it is reparameterized and scaled on top of that. -/
theorem changeEndWeights_cases (c : Curve K) (w0 w1 : K) :
    (c.changeEndWeights w0 w1).curve = c
      ∨ (0 < w0 ∧ ∃ b, c.clampEnds = .ok b
        ∧ ((c.changeEndWeights w0 w1).curve = b.makeRational
          ∨ ∃ factor m, b.makeRational.reparameterize factor = .ok m
            ∧ (c.changeEndWeights w0 w1).curve
              = m.scaleVectors (w0 / b.makeRational.points.weight 0))) := by
  unfold changeEndWeights
  split
  · exact .inl rfl
  · exact .inl rfl
  · next first _ =>
      split
      · exact .inl rfl
      · split
        · exact .inl rfl
        · next b clamped =>
            refine .inr ⟨checkWeight_eq_ok first, b, clamped, ?_⟩
            unfold fitEndWeights
            dsimp only
            split
            · next m moved => exact .inr ⟨_, m, moved, rfl⟩
            · exact .inl rfl

theorem Sound.changeEndWeights (h : c.Sound) (lt : c.domain.1 < c.domain.2) (w0 w1 : K) :
    (c.changeEndWeights w0 w1).curve.Sound := by
  rcases changeEndWeights_cases c w0 w1 with same | ⟨-, b, clamped, same | ⟨factor, m, moved, same⟩⟩
  · rw [same]
    exact h
  · rw [same]
    exact (h.within_clampEnds lt clamped).1.makeRational
  · obtain ⟨sound, keeps, -⟩ := h.within_clampEnds lt clamped
    have moved' := sound.makeRational.reparameterize (by
      rw [domain_makeRational, keeps.domain]
      exact lt) moved
    rw [same]
    exact (repointed_scaleVectors moved'.sized _).1.sound moved'

/-- **Setting the end weights keeps a curve regular, whether it succeeds or not.** -/
theorem Regular.changeEndWeights (h : c.Regular) (w0 w1 : K) :
    (c.changeEndWeights w0 w1).curve.Regular := by
  rcases changeEndWeights_cases c w0 w1 with same
    | ⟨pos, b, clamped, same | ⟨factor, m, moved, same⟩⟩
  · rw [same]
    exact h
  · rw [same]
    exact (h.regular_clampEnds clamped).makeRational
  · have regular := (h.regular_clampEnds clamped).makeRational
    have moved' := regular.reparameterize moved
    have inside : 0 < b.makeRational.points.length := by
      have := regular.two_le_order
      have := regular.order_le
      show 0 < b.makeRational.pointCount
      omega
    rw [same]
    exact (repointed_scaleVectors moved'.sized _).1.regular moved'
      ((repointed_scaleVectors moved'.sized _).2 moved'.positive
        (div_pos pos (regular.positive.weight_pos inside)))

end EndWeights

end RationalSpline.Curve
