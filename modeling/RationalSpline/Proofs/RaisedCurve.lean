/-
  RationalSpline.Proofs.RaisedCurve
  ─────────────────────────────────
  CURVES ON RAISED KNOTS.

  Padding completes the ends of clamped knots, so the padded knots of a curve on raised
  knots are the raised knots themselves.  Its shape follows whatever its control vectors
  are, as long as they fit; its values are those of the curve if they act rightly.
-/
import RationalSpline.Proofs.ClampedSpline
import RationalSpline.Proofs.Clamping

namespace RationalSpline

open Spline (Clamped raisedKnots AllSized ActsRightly)

variable {K : Type} [Field K] [LinearOrder K] {a b : K} {q inc : Nat}
  {ms : List (KnotMultiplicity K)}

/-! ## §1. Padding of clamped knots. -/

namespace KnotVector

section Ends

variable {W : KnotVector K} {mid : List K}

theorem knot_first (values : W.values = List.replicate q a ++ mid ++ List.replicate q b)
    {i : Nat} (hi : i < q) : W.knot i = a := by
  rw [knot, values, List.append_assoc, List.getD_append _ _ _ _ (by simpa using hi),
      List.getD_eq_getElem _ _ (by simpa using hi), List.getElem_replicate]

omit [Field K] [LinearOrder K] in
theorem size_of_values (values : W.values = List.replicate q a ++ mid ++ List.replicate q b) :
    W.size = q + mid.length + q := by
  rw [size, values, List.length_append, List.length_append, List.length_replicate,
      List.length_replicate]

theorem knot_last (values : W.values = List.replicate q a ++ mid ++ List.replicate q b)
    {i : Nat} (hi : W.size ≤ i + q) (hi' : i < W.size) : W.knot i = b := by
  have size := size_of_values values
  have front : (List.replicate q a ++ mid).length = q + mid.length := by
    rw [List.length_append, List.length_replicate]
  have inside : i - (List.replicate q a ++ mid).length < (List.replicate q b).length := by
    rw [front, List.length_replicate]
    omega
  rw [knot, values, List.getD_append_right _ _ _ _ (by omega), List.getD_eq_getElem _ _ inside,
      List.getElem_replicate]

/-- Full ends are clamped. -/
theorem isClamped_of_values (hq : 0 < q)
    (values : W.values = List.replicate q a ++ mid ++ List.replicate q b) (e : CurveEnd) :
    W.isClamped (q + 1) e = true := by
  have size := size_of_values values
  cases e with
  | start =>
      show (W.knot 0 == W.knot (q + 1 - 2)) = true
      rw [knot_first values hq, knot_first values (by omega)]
      exact beq_self_eq_true a
  | finish =>
      show (W.knot (W.size - 1) == W.knot (W.size + 1 - (q + 1))) = true
      rw [knot_last values (by omega) (by omega), knot_last values (by omega) (by omega)]
      exact beq_self_eq_true b

/-- Padding adds one knot to each full end. -/
theorem values_padded (hq : 0 < q)
    (values : W.values = List.replicate q a ++ mid ++ List.replicate q b) :
    (W.padded (q + 1)).values = List.replicate (q + 1) a ++ mid ++ List.replicate (q + 1) b := by
  have size := size_of_values values
  have start : W.superfluous (q + 1) .start = a := by
    rw [superfluous, if_pos (Or.inl (isClamped_of_values hq values .start))]
    exact knot_first values hq
  have finish : W.superfluous (q + 1) .finish = b := by
    rw [superfluous, if_pos (Or.inl (isClamped_of_values hq values .finish))]
    exact knot_last values (by omega) (by omega)
  show W.superfluous (q + 1) .start :: W.values ++ [W.superfluous (q + 1) .finish] = _
  rw [start, finish, values, List.replicate_succ, List.replicate_succ']
  simp

end Ends

/-- Without the outermost knots the ends have one copy less. -/
theorem values_unpadded {α : Type} {a b : α} {W : KnotVector α} {mid : List α}
    (values : W.values = List.replicate (q + 1) a ++ mid ++ List.replicate (q + 1) b) :
    W.unpadded.values = List.replicate q a ++ mid ++ List.replicate q b := by
  show W.values.tail.dropLast = _
  rw [values, List.replicate_succ, List.replicate_succ', List.append_assoc, List.cons_append,
      List.tail_cons, ← List.append_assoc, ← List.append_assoc, List.dropLast_concat]

end KnotVector

namespace Curve

/-! ## §2. Clamped curves. -/

/-- The padded knots of a curve with full ends. -/
theorem Sound.clamped {c : Curve K} (h : c.Sound) {mid : List K} (lt : a < b)
    (values : c.knots.values
      = List.replicate c.degree a ++ mid ++ List.replicate c.degree b)
    (between : ∀ x ∈ mid, a < x ∧ x < b) (le : ∀ x, mid.count x ≤ c.degree) :
    Clamped c.degree c.spline.knots a b (KnotVector.runs mid) := by
  have two := h.two_le_order
  have degree : c.degree = c.order - 1 := rfl
  have ordered : mid.Pairwise (· ≤ ·) := by
    have sublist : mid.Sublist c.knots.values := by
      rw [values, List.append_assoc]
      exact (List.sublist_append_left _ _).trans (List.sublist_append_right _ _)
    exact h.ordered.sublist sublist
  have inside : ∀ m ∈ KnotVector.runs mid, a < m.knot ∧ m.knot < b := fun m hm =>
    between _ (KnotVector.knot_mem_of_mem_runs hm)
  refine ⟨?_, ?_, (KnotVector.runs_spec mid).2, ?_⟩
  · have padded := KnotVector.values_padded (q := c.degree) (by omega) values
    rw [KnotVector.flatMap_runs, ← padded]
    show (c.knots.padded c.order).values = _
    rw [show c.degree + 1 = c.order by omega]
  · refine List.pairwise_cons.2 ⟨?_, List.pairwise_append.2
      ⟨KnotVector.pairwise_runs ordered, List.pairwise_singleton _ _, ?_⟩⟩
    · intro m hm
      rcases List.mem_append.1 hm with hm | hm
      · exact (inside m hm).1
      · rw [List.mem_singleton.1 hm]
        exact lt
    · intro m hm m' hm'
      rw [List.mem_singleton.1 hm']
      exact (inside m hm).2
  · intro m hm
    rw [← KnotVector.count_of_mem_runs ordered hm]
    exact le m.knot

theorem Sound.domain_of_clamped {c : Curve K} (h : c.Sound)
    (clamped : Clamped c.degree c.spline.knots a b ms) : c.domain = (a, b) := by
  have finish := clamped.knot_finish (size_padded_knots h) (Nat.zero_le _)
  rw [Nat.add_zero] at finish
  refine Prod.ext ?_ ?_
  · rw [h.domain_start]
    exact clamped.knot_start (le_refl _)
  · rw [h.domain_finish]
    exact finish

/-! ## §3. The raised curve. -/

/-- The curve in `inc` degrees more, with given control vectors. -/
def raisedWith (c : Curve K) (inc : Nat) (points : List (Point K)) : Curve K :=
  c.withSpline ⟨c.degree + inc, raisedKnots c.spline.knots inc, points⟩

variable {c : Curve K} {points : List (Point K)}

theorem order_raisedWith (h : c.Sound) : (c.raisedWith inc points).order = c.order + inc := by
  have two := h.two_le_order
  show c.order - 1 + inc + 1 = c.order + inc
  omega

theorem degree_raisedWith : (c.raisedWith inc points).degree = c.degree + inc := rfl

theorem vectorSize_raisedWith : (c.raisedWith inc points).vectorSize = c.vectorSize :=
  vectorSize_withSpline c _

theorem values_raisedWith (clamped : Clamped c.degree c.spline.knots a b ms) :
    (c.raisedWith inc points).knots.values = List.replicate (c.degree + inc) a
      ++ (ms.flatMap fun m => List.replicate (m.multiplicity + inc) m.knot)
      ++ List.replicate (c.degree + inc) b := by
  have values : (raisedKnots c.spline.knots inc).values = _ := clamped.values_raised
  rw [Nat.add_right_comm] at values
  exact KnotVector.values_unpadded values

/-- Padding restores the raised knots. -/
theorem knots_raisedWith (h : c.Sound) (clamped : Clamped c.degree c.spline.knots a b ms) :
    (c.raisedWith inc points).spline.knots = raisedKnots c.spline.knots inc := by
  have two := h.two_le_order
  have degree : c.degree = c.order - 1 := rfl
  have values : (raisedKnots c.spline.knots inc).values = _ := clamped.values_raised
  rw [Nat.add_right_comm] at values
  have compact : (c.raisedWith inc points).knots.values = _ := values_raisedWith clamped
  have padded := KnotVector.values_padded (q := c.degree + inc) (by omega) compact
  rw [← values] at padded
  exact congrArg KnotVector.mk padded

/-- There are `inc` control vectors more for each span. -/
theorem length_of_size_raised (h : c.Sound) (clamped : Clamped c.degree c.spline.knots a b ms)
    (size : (raisedKnots c.spline.knots inc).size = points.length + (c.degree + inc) + 1) :
    points.length = c.pointCount + inc * (ms.length + 1) := by
  have total := size_padded_knots h
  have vectors : c.points.vectors.length = c.pointCount := rfl
  have more := Spline.size_raisedKnots c.spline.knots inc
  rw [clamped.breaks_eq, List.length_cons, List.length_append, List.length_singleton,
      Nat.mul_succ] at more
  omega

/-- **Control vectors that fit make a sound curve of the raised knots.** -/
theorem Sound.raisedWith (h : c.Sound) (clamped : Clamped c.degree c.spline.knots a b ms)
    (size : (raisedKnots c.spline.knots inc).size = points.length + (c.degree + inc) + 1)
    (sized : AllSized c.vectorSize points) : (c.raisedWith inc points).Sound := by
  obtain ⟨two, enough, -, degree⟩ := h.counts
  have more := length_of_size_raised h clamped size
  rw [Nat.mul_succ] at more
  have positive : 0 < c.degree + inc := by omega
  have within : c.degree + inc < points.length := by omega
  exact sound_withSpline positive within size clamped.raised.ordered sized

theorem clamped_raisedWith (h : c.Sound) (clamped : Clamped c.degree c.spline.knots a b ms) :
    Clamped (c.raisedWith inc points).degree (c.raisedWith inc points).spline.knots a b
      (ms.map (KnotMultiplicity.raise inc)) := by
  rw [degree_raisedWith, knots_raisedWith h clamped]
  exact clamped.raised

variable [IsStrictOrderedRing K]

/-- **Control vectors that act rightly keep the values.** -/
theorem Sound.definedVector_raisedWith (h : c.Sound)
    (clamped : Clamped c.degree c.spline.knots a b ms)
    (size : (raisedKnots c.spline.knots inc).size = points.length + (c.degree + inc) + 1)
    (sized : AllSized c.vectorSize points) {F : Pieces K c.vectorSize c.degree}
    (follows : Follows c.spline.knots c.points.vectors F)
    (acts : ActsRightly c.spline.knots c.points.vectors.length c.degree (c.degree + inc)
      (fun t => (F t).elevate inc) (raisedKnots c.spline.knots inc).values points) {t : K}
    (h₀ : c.domain.1 ≤ t) (h₁ : t ≤ c.domain.2) :
    (c.raisedWith inc points).definedVector t = c.definedVector t := by
  have sound := h.raisedWith clamped size sized
  have domain : (c.raisedWith inc points).domain = c.domain :=
    (sound.domain_of_clamped (clamped_raisedWith h clamped)).trans
      (h.domain_of_clamped clamped).symm
  have lt : c.domain.1 < c.domain.2 := by
    rw [h.domain_of_clamped clamped]
    exact List.rel_of_pairwise_cons clamped.sorted
      (List.mem_append_right _ (List.mem_singleton.2 rfl))
  have raised := clamped.follows_raised (size_padded_knots h) follows size acts
  refine definedVector_eq_of_follows h sound domain lt rfl vectorSize_raisedWith rfl
      degree_raisedWith
    follows ?_ (fun t' t => PolarForm.elevate_diagonal _ _ _) h₀ h₁
  rw [knots_raisedWith h clamped]
  show Follows _ (c.withSpline _).points.vectors _
  rw [vectors_withSpline]
  exact raised

end Curve

end RationalSpline
