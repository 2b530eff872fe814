/-
  RationalSpline.Proofs.Greville
  ──────────────────────────────
  GREVILLE ABSCISSAE.

  The mean of its arguments is a polar form, and the form of the parameter itself:
  at equal arguments it gives that argument back.  Its values at the stretches of
  `degree` knots are the Greville abscissae.  So these are the control points of the
  curve whose point at every parameter is the parameter, on any knots and whatever
  span the search picks.

  They increase because one knot more than the degree in a row are not all equal.
-/
import RationalSpline.Proofs.Evaluation
import RationalSpline.Proofs.Smoothness
import RationalSpline.Proofs.Validity

namespace RationalSpline

variable {K : Type} [Field K]

/-! ## §1. The mean. -/

namespace PolarForm

variable {p : Nat}

/-- The mean of the arguments, as a vector of one coordinate. -/
def mean : PolarForm K (Fin 1 → K) p where
  toFun s _ := s.sum / p
  affine s a x y _ := by
    funext
    simp only [Multiset.sum_cons, mix, Pi.add_apply, Pi.smul_apply, smul_eq_mul]
    ring

theorem mean_apply (s : Multiset K) : (mean : PolarForm K _ p) s = fun _ => s.sum / p := rfl

/-- The mean of equal arguments is that argument. -/
theorem mean_replicate [CharZero K] (hp : 0 < p) (t : K) :
    (mean : PolarForm K _ p) (Multiset.replicate p t) = fun _ => t := by
  have unit : (p : K) ≠ 0 := Nat.cast_ne_zero.2 hp.ne'
  rw [mean_apply, Multiset.sum_replicate, nsmul_eq_mul, mul_div_cancel_left₀ t unit]

end PolarForm

/-! ## §2. Averages of knots. -/

variable [LinearOrder K]

namespace KnotVector

/-- An average of knots is the mean of their stretch. -/
theorem greville_eq (U : KnotVector K) {i p : Nat} (h : i + p ≤ U.size) :
    U.greville (p + 1) i = (stretch U.knot i p).sum / p := by
  rw [greville, Nat.add_sub_cancel, ← List.sum_eq_foldl, stretch_eq_coe U h, Multiset.sum_coe]

variable [IsStrictOrderedRing K]

/-- The next average has the knot behind the stretch for the first one of the stretch. -/
theorem greville_lt {U : KnotVector K} {i p : Nat} (pos : 0 < p) (inside : i + p < U.size)
    (apart : U.knot i < U.knot (i + p)) : U.greville (p + 1) i < U.greville (p + 1) (i + 1) := by
  -- all knots of the two stretches together, with the first or the last one apart
  have common : U.knot i + (stretch U.knot (i + 1) p).sum
      = U.knot (i + p) + (stretch U.knot i p).sum := by
    rw [← Multiset.sum_cons, ← stretch_succ, stretch_succ_right, Multiset.sum_cons]
  rw [U.greville_eq inside.le, U.greville_eq (by omega)]
  refine div_lt_div_of_pos_right ?_ (Nat.cast_pos.2 pos)
  linarith

end KnotVector

/-! ## §3. The curve of the parameter. -/

namespace Curve

variable {c : Curve K}

/-- The curve on the knots of `c` whose control points are the Greville abscissae. -/
def parameterLine (c : Curve K) : Curve K where
  dimension := 1
  order := c.order
  points := .cartesian (c.grevilleAbscissae.map fun ξ => [ξ])
  knots := c.knots

@[simp] theorem length_grevilleAbscissae (c : Curve K) :
    c.grevilleAbscissae.length = c.pointCount := by
  rw [grevilleAbscissae, List.length_map, List.length_range]

@[simp] theorem pointCount_parameterLine (c : Curve K) :
    c.parameterLine.pointCount = c.pointCount := by
  show (c.grevilleAbscissae.map fun ξ => [ξ]).length = _
  rw [List.length_map, length_grevilleAbscissae]

theorem getD_vectors_parameterLine {j : Nat} (hj : j < c.pointCount) :
    c.parameterLine.points.vectors.getD j [] = [c.knots.greville c.order j] := by
  show (c.grevilleAbscissae.map fun ξ => [ξ]).getD j [] = _
  rw [grevilleAbscissae, List.map_map, List.getD_eq_getElem _ _ (by simpa using hj),
      List.getElem_map, List.getElem_range]
  rfl

theorem Sound.greville_eq (h : c.Sound) {j : Nat} (hj : j < c.pointCount) :
    c.knots.greville c.order j = (stretch c.knots.knot j c.degree).sum / c.degree := by
  obtain ⟨two, enough, size, degree⟩ := h.counts
  rw [← c.knots.greville_eq (by omega), degree, Nat.sub_add_cancel (by omega)]

/-- Every control point has the knots of its average. -/
theorem Regular.greville?_eq (h : c.Regular) {j : Nat} (hj : j < c.pointCount) :
    c.knots.greville? c.order j = some (c.knots.greville c.order j) := by
  obtain ⟨two, enough, size, degree⟩ := h.counts
  exact if_pos ⟨by omega, by omega⟩

/-- The curve of the parameter follows the mean on every span. -/
theorem Sound.follows_parameterLine (h : c.Sound) :
    Follows c.parameterLine.spline.knots c.parameterLine.points.vectors
      fun _ => (PolarForm.mean : PolarForm K _ c.degree) := by
  obtain ⟨two, enough, size, degree⟩ := h.counts
  have points : c.parameterLine.points.vectors.length = c.pointCount := c.pointCount_parameterLine
  intro i hp hi t _ _ j hj _
  -- the padding moves the knots by one place
  have knots : stretch c.parameterLine.spline.knots.knot (j + 1) c.degree
      = stretch c.knots.knot j c.degree := by
    refine stretch_congr fun r hr => ?_
    rw [show j + 1 + r = j + r + 1 by omega]
    exact KnotVector.knot_padded c.knots c.order (by omega)
  rw [getD_vectors_parameterLine (by omega), h.greville_eq (by omega), knots,
      PolarForm.mean_apply]
  rfl

variable [IsStrictOrderedRing K]

/-- **The Greville abscissae increase.** -/
theorem Regular.pairwise_grevilleAbscissae (h : c.Regular) :
    c.grevilleAbscissae.Pairwise (· < ·) := by
  obtain ⟨two, enough, size, degree⟩ := h.counts
  have next : ∀ i, i + 1 < c.pointCount →
      c.knots.greville c.order i < c.knots.greville c.order (i + 1) := by
    intro i hi
    rw [show c.order = c.degree + 1 by omega]
    exact KnotVector.greville_lt (by omega) (by omega) (h.knot_lt (by omega))
  have chain : c.grevilleAbscissae.IsChain (· < ·) := by
    refine List.isChain_iff_getElem.2 fun i hi => ?_
    simp only [length_grevilleAbscissae] at hi
    simp only [grevilleAbscissae, List.getElem_map, List.getElem_range]
    exact next i hi
  exact chain.pairwise

/-- The curve of the parameter is as regular as the knots. -/
theorem Regular.parameterLine (h : c.Regular) : c.parameterLine.Regular where
  two_le_order := h.two_le_order
  order_le := h.order_le.trans_eq c.pointCount_parameterLine.symm
  knotCount_eq := by
    rw [pointCount_parameterLine]
    exact h.knotCount_eq
  ordered := h.ordered
  sized x hx := by
    obtain ⟨ξ, -, rfl⟩ := List.mem_map.1 hx
    rfl
  dimension_pos := le_rfl
  first_span := h.first_span
  last_span := by
    rw [pointCount_parameterLine]
    exact h.last_span
  count_le := h.count_le
  weight_pos w hw := by
    obtain ⟨i, -, rfl⟩ := List.mem_map.1 hw
    exact one_pos

section Search

variable [Precision K] [Precision.Exact K]

theorem isValid_parameterLine (valid : c.isValid = true) : c.parameterLine.isValid = true := by
  obtain ⟨-, regular, grouped⟩ := isValid_iff_regular.1 valid
  have one : c.parameterLine.vectorSize < countLimit := (by decide : 1 < countLimit)
  exact isValid_iff_regular.2 ⟨one, regular.parameterLine, grouped⟩

/-- The point of the curve of the parameter is the parameter. -/
theorem Regular.pointAt_parameterLine (h : c.Regular) (t : K) :
    c.parameterLine.pointAt t = [t] := by
  have regular := h.parameterLine
  have two := h.two_le_order
  have degree : c.degree = c.order - 1 := rfl
  -- the form at some parameter inside the span that is picked, which need not hold `t`
  obtain ⟨-, -, span, -⟩ := regular.spanAt_spec t
  obtain ⟨t', low, high⟩ := exists_between span
  have value := regular.vectorAt_eq (p := c.degree) rfl rfl h.toSound.follows_parameterLine low high
  rw [PolarForm.mean_replicate (show 0 < c.degree by omega)] at value
  exact value

/-- **The Greville abscissae of a valid curve increase, and the curve that has them for control
points gives every parameter back, inside the domain and outside.** -/
theorem parameterLine_gives_parameter (valid : c.isValid = true) :
    c.grevilleAbscissae.length = c.pointCount
      ∧ (∀ j < c.pointCount, c.knots.greville? c.order j = c.grevilleAbscissae[j]?)
      ∧ c.grevilleAbscissae.Pairwise (· < ·)
      ∧ c.parameterLine.isValid = true
      ∧ ∀ t, c.parameterLine.pointAt? t = some [t] := by
  have regular := regular_of_isValid valid
  refine ⟨c.length_grevilleAbscissae, fun j hj => ?_, regular.pairwise_grevilleAbscissae,
    isValid_parameterLine valid, fun t => ?_⟩
  · rw [regular.greville?_eq hj, grevilleAbscissae, List.getElem?_map, List.getElem?_range hj]
    rfl
  · rw [regular.parameterLine.pointAt?_eq, regular.pointAt_parameterLine]

end Search

/-- Outside the domain of an unclamped rational curve. -/
theorem parameterLine_openStart :
    openStart.isValid = true
      ∧ openStart.grevilleAbscissae = [1 / 2, 3 / 2, 5 / 2, 3]
      ∧ openStart.parameterLine.pointAt? 7 = some [7] := by
  have valid : openStart.isValid = true := by decide +kernel
  exact ⟨valid, by decide +kernel, (parameterLine_gives_parameter valid).2.2.2.2 7⟩

end Curve

end RationalSpline
