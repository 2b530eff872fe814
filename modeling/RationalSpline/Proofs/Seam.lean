/-
  RationalSpline.Proofs.Seam
  ──────────────────────────
  THE SEAM OF A CLOSED CURVE.

  A closed curve ends as it began: its first control points come again at the end, on
  the first knots moved by the length of the domain.  So the form of the first span, and
  that of the last one moved back, agree at all stretches of knots that hold the seam,
  and then wherever the seam is an argument.  A derivative below the degree leaves an
  argument at the parameter, so it is the same at both ends.
-/
import RationalSpline.Proofs.Construction
import RationalSpline.Proofs.Derivatives
import RationalSpline.Proofs.Smoothness

open Polynomial

namespace RationalSpline

variable {K : Type} [Field K] [LinearOrder K] {d p : Nat}

omit [LinearOrder K] in
/-- The form of a piece whose parameters begin at `a`. -/
def PolarForm.translate {V : Type} [AddCommGroup V] [Module K V] (f : PolarForm K V p) (a : K) :
    PolarForm K V p where
  toFun s := f (s.map (· + a))
  affine s b x y hs := by
    have middle : mix b x y + a = mix b (x + a) (y + a) := by
      simp only [mix, smul_eq_mul]
      ring
    rw [Multiset.map_cons, middle, f.affine _ _ _ _ (by simpa using hs), Multiset.map_cons,
        Multiset.map_cons]

namespace Curve

variable {c : Curve K}

/-! ## §1. Curves that close. -/

/-- What the curve begins with comes again after `n` control points and as many knots, the
knots later by `period`. -/
structure Closes (c : Curve K) (n : Nat) (period : K) : Prop where
  /-- As many control points come again as the degree says. -/
  pointCount_eq : c.pointCount = n + c.degree
  /-- The first control points are the last. -/
  vector_eq : ∀ j < c.degree, c.points.vectors.getD (j + n) [] = c.points.vectors.getD j []
  /-- The knots are moved. -/
  knot_eq : ∀ i, i + n < c.knots.size → c.knots.knot (i + n) = c.knots.knot i + period

namespace Closes

variable {n : Nat} {period : K}

theorem domain_eq (h : c.Closes n period) (sound : c.Sound) :
    c.domain.2 = c.domain.1 + period := by
  have two := sound.two_le_order
  have size : c.knots.size = c.pointCount + c.order - 2 := sound.knotCount_eq
  have points := h.pointCount_eq
  have degree : c.degree = c.order - 1 := rfl
  show c.knots.knot (c.knots.size + 1 - c.order) = c.knots.knot (c.order - 2) + period
  rw [show c.knots.size + 1 - c.order = c.order - 2 + n by omega]
  exact h.knot_eq _ (by omega)

/-- **Where the seam is an argument, the form of the first span is that of the last one moved.** -/
theorem forms_agree [IsStrictOrderedRing K] (h : c.Closes n period) (regular : c.Regular)
    (hp : c.degree = p) {F : Pieces K d p}
    (follows : Follows c.spline.knots c.points.vectors F) {t t' : K}
    (low : c.spline.knots.knot c.degree < t) (high : t < c.spline.knots.knot (c.degree + 1))
    (low' : c.spline.knots.knot (c.pointCount - 1) < t')
    (high' : t' < c.spline.knots.knot c.pointCount) {s : Multiset K} (card : s.card = p)
    (held : c.domain.1 ∈ s) : F t s = F t' (s.map (· + period)) := by
  have sound := regular.toSound
  have two := sound.two_le_order
  have enough := sound.order_le
  have points := h.pointCount_eq
  have degree : c.degree = c.order - 1 := rfl
  have size : c.knots.size = c.pointCount + c.order - 2 := sound.knotCount_eq
  have padded := size_padded_knots sound
  have length : c.points.vectors.length = c.pointCount := rfl
  have ordered := sound.ordered_padded
  have last : c.pointCount - 1 + 1 = c.pointCount := by omega
  rw [sound.domain_start] at held
  -- the knots of a stretch around the seam come again
  have again : ∀ j < p, (stretch c.spline.knots.knot (j + 1) p).map (· + period)
      = stretch c.spline.knots.knot (j + n + 1) p := by
    intro j hj
    rw [stretch_map]
    refine stretch_congr fun r hr => ?_
    show (c.knots.padded c.order).knot (j + 1 + r) + period
      = (c.knots.padded c.order).knot (j + n + 1 + r)
    rw [show j + 1 + r = j + r + 1 by omega, show j + n + 1 + r = j + r + n + 1 by omega,
        KnotVector.knot_padded _ _ (by omega), KnotVector.knot_padded _ _ (by omega)]
    exact (h.knot_eq _ (by omega)).symm
  refine PolarForm.eq_of_held (g := (F t').translate period) (u := c.spline.knots.knot) (a := 1)
    (q := p - 1) (m := 1) (by omega) ?_ ?_ card ?_
  · intro r hr r' hr'
    have below : c.spline.knots.knot (1 + r) ≤ c.spline.knots.knot c.degree :=
      ordered.knot_le (by omega) (by omega)
    have above : c.spline.knots.knot (c.degree + 1)
        ≤ c.spline.knots.knot (1 + (p - 1) + 1 + r') := ordered.knot_le (by omega) (by omega)
    exact ne_of_lt (lt_of_le_of_lt below (lt_of_lt_of_le (lt_trans low high) above))
  · intro j hj
    rw [show 1 + j = j + 1 by omega]
    show F t _ = F t' ((stretch c.spline.knots.knot (j + 1) p).map (· + period))
    rw [again j (by omega)]
    refine Point.ofVec_injective ?_
    rw [← follows c.degree (by omega) (by omega) t low high j (by omega) (by omega),
        ← follows (c.pointCount - 1) (by omega) (by omega) t' low' (last.symm ▸ high') (j + n)
          (by omega) (by omega)]
    exact (h.vector_eq j (by omega)).symm
  · rw [show 1 + (p - 1) = c.degree by omega]
    exact Multiset.singleton_le.2 held

end Closes

/-! ## §2. Derivatives at the ends. -/

/-- What forms share where an argument is held, their derivatives share below the degree. -/
theorem eval_iterate_derivative_congr {q k : Nat} (pos : 0 < q)
    {f g : PolarForm K (Fin d → K) (q + k)} {a t : K}
    (agree : ∀ s : Multiset K, s.card = q + k → t ∈ s → f s = g (s.map (· + a))) {m : Nat}
    (hm : m < d) :
    (derivative^[k] (coordinatePiece f m)).eval t
      = (derivative^[k] (coordinatePiece g m)).eval (t + a) := by
  have affine : PolarForm.Affine (q + k) g := g.affine
  have held : {t} ≤ Multiset.replicate q t :=
    Multiset.singleton_le.2 (Multiset.mem_replicate.2 ⟨by omega, rfl⟩)
  have slope : (PolarForm.slope^[k] f) (Multiset.replicate q t)
      = (PolarForm.slope^[k] g) (Multiset.replicate q (t + a)) :=
    calc (PolarForm.slope^[k] f) (Multiset.replicate q t)
        = (PolarForm.slope^[k] fun s => g (s.map (· + a))) (Multiset.replicate q t) :=
          PolarForm.iterate_slope_congr
            (fun s size le => agree s size (Multiset.singleton_le.1 le))
            (Multiset.card_replicate _ _) held
      _ = (PolarForm.slope^[k] g) ((Multiset.replicate q t).map (· + a)) :=
          affine.iterate_slope_translate a (Multiset.card_replicate _ _)
      _ = (PolarForm.slope^[k] g) (Multiset.replicate q (t + a)) := by
          rw [Multiset.map_replicate]
  rw [eval_iterate_derivative_coordinatePiece f hm, eval_iterate_derivative_coordinatePiece g hm,
      slope]

section Pieces

variable [IsStrictOrderedRing K] {n : Nat} {period : K}

/-- **Below the degree the derivatives of the first piece and of the last one are the same** at the
two ends of a curve that closes. -/
theorem Closes.pieces_agree (h : c.Closes n period) (regular : c.Regular)
    {F : Pieces K d c.degree} (follows : Follows c.spline.knots c.points.vectors F) {t t' : K}
    (low : c.spline.knots.knot c.degree < t) (high : t < c.spline.knots.knot (c.degree + 1))
    (low' : c.spline.knots.knot (c.pointCount - 1) < t')
    (high' : t' < c.spline.knots.knot c.pointCount) {k m : Nat} (hk : k < c.degree) (hm : m < d) :
    (derivative^[k] (coordinatePiece (F t) m)).eval c.domain.1
      = (derivative^[k] (coordinatePiece (F t') m)).eval c.domain.2 := by
  have agree : ∀ s : Multiset K, s.card = c.degree → c.domain.1 ∈ s →
      F t s = F t' (s.map (· + period)) := fun s card held =>
    h.forms_agree regular rfl follows low high low' high' card held
  rw [h.domain_eq regular.toSound]
  -- at least one argument is left at the parameter
  obtain ⟨q, degree⟩ : ∃ q, c.degree = q + k := ⟨c.degree - k, by omega⟩
  have pos : 0 < q := by omega
  generalize F t = f at agree ⊢
  generalize F t' = g at agree ⊢
  generalize c.degree = p at *
  subst degree
  exact eval_iterate_derivative_congr pos agree hm

end Pieces

variable [IsStrictOrderedRing K] [Precision K] [Precision.Exact K]

/-- On a domain as long as the spacing of the numbers, the start is in the first span, -/
theorem Regular.spanAt_start (h : c.Regular)
    (wide : Precision.epsilon ≤ c.domain.2 - c.domain.1) :
    c.spline.spanAt c.domain.1 = c.degree := by
  have ordered := h.toSound.ordered_padded
  have size := size_padded_knots h.toSound
  have length : c.points.vectors.length = c.pointCount := rfl
  obtain ⟨-, -, first, -⟩ := h.end_spans
  obtain ⟨low, high, -, picked⟩ := h.spanAt_spec c.domain.1
  rw [if_neg (by linarith)] at picked
  split_ifs at picked
  · exact picked
  · by_contra other
    have next : c.spline.knots.knot (c.degree + 1)
        ≤ c.spline.knots.knot (c.spline.spanAt c.domain.1) :=
      ordered.knot_le (by omega) (by omega)
    have start := picked.1
    rw [h.toSound.domain_start] at start next
    exact absurd (next.trans start) (not_le.2 first)

/-- and the end in the last one. -/
theorem Regular.spanAt_finish (h : c.Regular)
    (wide : Precision.epsilon ≤ c.domain.2 - c.domain.1) :
    c.spline.spanAt c.domain.2 = c.pointCount - 1 := by
  have ordered := h.toSound.ordered_padded
  have size := size_padded_knots h.toSound
  have length : c.points.vectors.length = c.pointCount := rfl
  obtain ⟨-, -, -, last⟩ := h.end_spans
  obtain ⟨low, high, -, picked⟩ := h.spanAt_spec c.domain.2
  split_ifs at picked with late early
  · exact picked
  · exact absurd early (by linarith)
  · by_contra other
    have before : c.spline.knots.knot (c.spline.spanAt c.domain.2 + 1)
        ≤ c.spline.knots.knot (c.pointCount - 1) := ordered.knot_le (by omega) (by omega)
    have finish := picked.2
    rw [h.toSound.domain_finish] at finish before
    exact absurd (finish.trans before) (not_le.2 last)

/-- **Below the degree the derivatives agree at the two ends of a curve that closes.** -/
theorem Closes.derivatives_eq {n : Nat} {period : K} (h : c.Closes n period) (regular : c.Regular)
    (wide : Precision.epsilon ≤ period) {count : Nat} (below : count < c.degree) :
    c.derivatives c.domain.1 count = c.derivatives c.domain.2 count := by
  have domain := h.domain_eq regular.toSound
  have points := regular.toSound.order_le
  have two := regular.toSound.two_le_order
  have far : Precision.epsilon ≤ c.domain.2 - c.domain.1 := by linarith
  have start := regular.spanAt_start far
  have finish := regular.spanAt_finish far
  obtain ⟨F, follows⟩ := regular.toSound.exists_follows rfl rfl
  obtain ⟨-, -, first, last⟩ := regular.end_spans
  obtain ⟨t, low, high⟩ := exists_between first
  obtain ⟨t', low', high'⟩ := exists_between last
  have whole : c.pointCount - 1 + 1 = c.pointCount := by omega
  have entry : ∀ k ≤ count, (c.vectorDerivatives c.domain.1 count).getD k []
      = (c.vectorDerivatives c.domain.2 count).getD k [] := by
    intro k hk
    rw [regular.getD_vectorDerivatives rfl rfl follows (lt_of_eq_of_lt (by rw [start]) low)
          (by rwa [start]) hk,
        regular.getD_vectorDerivatives rfl rfl follows (lt_of_eq_of_lt (by rw [finish]) low')
          (by rwa [finish, whole]) hk]
    refine congrArg Point.ofVec (funext fun m => ?_)
    exact h.pieces_agree regular follows low high low' high' (by omega) m.isLt
  have vectors : c.vectorDerivatives c.domain.1 count = c.vectorDerivatives c.domain.2 count := by
    refine List.ext_getElem (by simp [vectorDerivatives]) fun k hk hk' => ?_
    have inside : k < count + 1 := by simpa [vectorDerivatives] using hk
    have same := entry k (by omega)
    rwa [List.getD_eq_getElem _ _ hk, List.getD_eq_getElem _ _ hk'] at same
  rw [derivatives, derivatives, vectors]

/-! ## §3. Closed curves on equally spaced knots. -/

variable {dimension order : Nat} {points : List (Point K)} {delta : K}

omit [IsStrictOrderedRing K] [Precision.Exact K] in
/-- The points are taken in turn, so the first ones come again. -/
theorem closes_periodicUniform (ok : periodicUniform dimension order points delta = .ok c) :
    c.Closes points.length (points.length * delta) := by
  obtain ⟨two, enough, -, -, rfl⟩ := periodicUniform_eq_ok ok
  have entry : ∀ i < points.length + order - 1,
      ((List.range (points.length + order - 1)).map fun i =>
        points.getD (i % points.length) []).getD i [] = points.getD (i % points.length) [] := by
    intro i hi
    simp [List.getD_eq_getElem?_getD, List.getElem?_range hi]
  refine ⟨?_, fun j hj => ?_, fun i hi => ?_⟩
  · show ((List.range (points.length + order - 1)).map _).length = points.length + (order - 1)
    rw [List.length_map, List.length_range]
    omega
  · replace hj : j < order - 1 := hj
    show ((List.range (points.length + order - 1)).map _).getD (j + points.length) []
      = ((List.range (points.length + order - 1)).map _).getD j []
    rw [entry _ (by omega), entry _ (by omega), Nat.add_mod_right]
  · rw [KnotVector.size_periodicUniform] at hi
    show (KnotVector.periodicUniform _ _ _).knot _ = (KnotVector.periodicUniform _ _ _).knot _ + _
    rw [knot_periodicUniform hi, knot_periodicUniform (by omega)]
    push_cast
    ring

/-- **The seam is smooth.**  The domain has one spacing for each point, and at its two ends the
locations and all derivatives below the degree are the same.  They are there unless their factors
leave the word, which from order 22 on some of them do. -/
theorem periodicUniform_seam (ok : periodicUniform dimension order points delta = .ok c) :
    c.domain = (0, points.length * delta)
      ∧ (∀ count ≤ order - 2,
        c.derivatives 0 count = c.derivatives (points.length * delta) count
          ∧ c.derivatives? 0 count = c.derivatives? (points.length * delta) count)
      ∧ (order ≤ 21 → points.length + 2 * order ≤ storageLimit →
        c.derivatives? 0 (order - 2) = some (c.derivatives 0 (order - 2)))
      ∧ (22 ≤ order → c.derivatives? 0 (order - 2) = none) := by
  have closes := closes_periodicUniform ok
  obtain ⟨two, enough, pos, valid, whole⟩ := periodicUniform_eq_ok ok
  obtain ⟨-, regular, groups⟩ := isValid_iff_regular.1 valid
  have measured := measured_of_isValid valid
  have order_eq : c.order = order := by rw [whole]
  have degree : c.degree = order - 1 := by rw [← order_eq]; rfl
  have count := closes.pointCount_eq
  have knotCount := regular.toSound.knotCount_eq
  have knot : ∀ i < points.length + order - 1 + order - 2,
      c.knots.knot i = delta * ((i : K) - ((order - 2 : Nat) : K)) := by
    intro i hi
    rw [whole]
    exact knot_periodicUniform hi
  have start : c.domain.1 = 0 := by
    show c.knots.knot (c.order - 2) = 0
    rw [order_eq, knot _ (by omega), sub_self, mul_zero]
  have finish : c.domain.2 = points.length * delta := by
    rw [closes.domain_eq regular.toSound, start, zero_add]
  -- the knots of one group are closer together than there are points
  have wide : Precision.epsilon ≤ (points.length : K) * delta := by
    have spread := groups.first_spread regular.toSound
    rw [degree, knot _ (by omega), knot _ (by omega), ← mul_sub, sub_sub_sub_cancel_right,
        ← Nat.cast_sub (Nat.zero_le _), Nat.sub_zero, mul_comm] at spread
    have more : ((order - 1 : Nat) : K) ≤ points.length := by exact_mod_cast by omega
    exact spread.le.trans (mul_le_mul_of_nonneg_right more pos.le)
  refine ⟨Prod.ext start finish, fun k hk => ?_, fun low room => ?_, fun high => ?_⟩
  · have same := closes.derivatives_eq regular wide (show k < c.degree by omega)
    rw [start, finish] at same
    refine ⟨same, ?_⟩
    rw [measured.derivatives?_eq, measured.derivatives?_eq, same]
  · rw [measured.derivatives?_eq, if_pos ⟨by omega, by omega,
      KnotVector.descFactorial_lt_of_le (by omega) _⟩]
  · exact measured.derivatives?_eq_none 0 (by omega) (by omega)

/-- A cubic curve around three points, which are fewer than its order. -/
theorem periodicUniform_seam_triangle :
    let c : Curve ℚ :=
      ⟨2, 4, .cartesian [[0, 0], [3, 0], [0, 3], [0, 0], [3, 0], [0, 3]],
        ⟨[-2, -1, 0, 1, 2, 3, 4, 5]⟩⟩
    periodicUniform 2 4 [[0, 0], [3, 0], [0, 3]] 1 = .ok c ∧ c.domain = (0, 3)
      ∧ c.derivatives? 0 2 = some [[2, 1 / 2], [0, 3 / 2], [-6, 3]]
      ∧ c.derivatives? 3 2 = some [[2, 1 / 2], [0, 3 / 2], [-6, 3]] := by
  intro c
  have ok : periodicUniform 2 4 [[0, 0], [3, 0], [0, 3]] 1 = .ok c :=
    eq_ok_of_toOption (by decide +kernel)
  obtain ⟨domain, same, defined, -⟩ := periodicUniform_seam ok
  have three : ((3 : Nat) : ℚ) * 1 = 3 := by norm_num
  have values : c.derivatives 0 2 = [[2, 1 / 2], [0, 3 / 2], [-6, 3]] := by decide +kernel
  have first : c.derivatives? 0 2 = some [[2, 1 / 2], [0, 3 / 2], [-6, 3]] :=
    (defined (by decide) (by decide)).trans (congrArg some values)
  have last := (same 2 le_rfl).2
  simp only [List.length_cons, List.length_nil, Nat.reduceAdd, three] at domain last
  exact ⟨ok, domain, first, last.symm.trans first⟩

/-- A closed curve of order 22 has no derivatives at its ends up to the order of its seam. -/
theorem restLoop_derivatives_undefined :
    ∃ c : Curve ℚ, periodicUniform 1 22 (List.replicate 21 [0]) 1 = .ok c
      ∧ ¬∃ ders, c.derivatives? c.domain.1 20 = some ders
        ∧ c.derivatives? c.domain.2 20 = some ders := by
  have made : (periodicUniform 1 22 (List.replicate 21 [(0 : ℚ)]) 1).toOption.isSome = true := by
    decide +kernel
  obtain ⟨c, some⟩ := Option.isSome_iff_exists.1 made
  have ok := eq_ok_of_toOption some
  obtain ⟨-, -, -, valid, whole⟩ := periodicUniform_eq_ok ok
  refine ⟨c, ok, ?_⟩
  rintro ⟨ders, start, -⟩
  have degree : c.degree = 21 := by rw [whole]; rfl
  rw [(measured_of_isValid valid).derivatives?_eq_none _ degree.ge (by decide)] at start
  cases start

end Curve

end RationalSpline
