/-
  RationalSpline.Proofs.CoxDeBoor
  ───────────────────────────────
  THE CURVE BY DEFINITION.

  The Cox–de Boor functions on padded knots `U` are given by the recurrence

      N 0 j        =  1 on the span from `U j` to `U (j + 1)`, 0 elsewhere
      N (p + 1) j  =  (t - U j) / (U (j + p + 1) - U j) · N p j
                      + (U (j + p + 2) - t) / (U (j + p + 2) - U (j + 1)) · N p (j + 1)

  in which a quotient by an empty support counts as 0.  Spans are closed on the
  left; the last non-empty one is closed on the right as well.  A curve is the sum
  of its control vectors times these functions, and its location is that sum
  divided by its weight if the curve is rational.

  Nothing of the span search or of the triangular scheme enters here.  The sum is
  the value of a polar form at equal arguments (`coxDeBoor_sum`).
-/
import RationalSpline.Proofs.Coordinates
import RationalSpline.Proofs.KnotOrder

namespace RationalSpline

/-! ## §1. The definition. -/

namespace KnotVector

variable {α : Type} [Scalar α]

/-- The quotient of a distance by the length of a support, 0 if that is empty. -/
def portion (a b : α) : α := if b == 0 then 0 else a / b

/-- `t` belongs to the span `j` of a curve whose domain ends at `finish`. -/
def onSpan (U : KnotVector α) (finish t : α) (j : Nat) : Bool :=
  decide (U.knot j ≤ t ∧ t < U.knot (j + 1) ∧ t < finish)
    || (decide (U.knot j < t) && U.knot (j + 1) == t && t == finish)

/-- The Cox–de Boor function of degree `p` and index `j` at `t`. -/
def coxDeBoor (U : KnotVector α) (finish t : α) : Nat → Nat → α
  | 0, j => if U.onSpan finish t j then 1 else 0
  | p + 1, j =>
      portion (t - U.knot j) (U.knot (j + p + 1) - U.knot j) * coxDeBoor U finish t p j
        + portion (U.knot (j + p + 2) - t) (U.knot (j + p + 2) - U.knot (j + 1))
          * coxDeBoor U finish t p (j + 1)

end KnotVector

namespace Curve

variable {α : Type} [Scalar α]

/-- The vector at `t` by definition: the control vectors times the Cox–de Boor functions. -/
def definedVector (c : Curve α) (t : α) : Point α :=
  Point.combine c.vectorSize
    ((List.range c.pointCount).map (c.spline.knots.coxDeBoor c.domain.2 t c.degree))
    c.points.vectors

/-- The location at `t` by definition. -/
def definedAt (c : Curve α) (t : α) : Point α :=
  if c.isRational then Point.dehomogenize (c.definedVector t) else c.definedVector t

end Curve

/-! ## §2. Support. -/

namespace KnotVector

variable {K : Type} [Field K] [LinearOrder K]

/-- Of the spans up to `m`, the one at `i` is the span of `t`. -/
def SpanOnly (U : KnotVector K) (finish t : K) (i m : Nat) : Prop :=
  ∀ l ≤ m, U.onSpan finish t l = decide (l = i)

theorem onSpan_iff {U : KnotVector K} {finish t : K} {j : Nat} :
    U.onSpan finish t j = true ↔
      (U.knot j ≤ t ∧ t < U.knot (j + 1) ∧ t < finish)
        ∨ (U.knot j < t ∧ U.knot (j + 1) = t ∧ t = finish) := by
  simp only [onSpan, Bool.or_eq_true, Bool.and_eq_true, decide_eq_true_eq, beq_iff_eq,
    and_assoc]

theorem knot_lt_of_onSpan {U : KnotVector K} {finish t : K} {j : Nat}
    (h : U.onSpan finish t j = true) : U.knot j < U.knot (j + 1) := by
  rcases onSpan_iff.1 h with ⟨h₁, h₂, _⟩ | ⟨h₁, h₂, _⟩
  · exact lt_of_le_of_lt h₁ h₂
  · exact h₂ ▸ h₁

/-- The span holds the parameter, with its right end at the end of the domain. -/
theorem within_of_onSpan {U : KnotVector K} {finish t : K} {j : Nat}
    (h : U.onSpan finish t j = true) : U.knot j ≤ t ∧ t ≤ U.knot (j + 1) := by
  rcases onSpan_iff.1 h with ⟨below, above, -⟩ | ⟨below, same, -⟩
  · exact ⟨below, above.le⟩
  · exact ⟨below.le, same.ge⟩

/-- Knots in order have at most one span for each parameter. -/
theorem Ordered.spanOnly {U : KnotVector K} (h : U.Ordered) {finish t : K} {i m : Nat}
    (hi : U.onSpan finish t i = true) (him : i ≤ m) (hm : m + 1 < U.size) :
    U.SpanOnly finish t i m := by
  intro l hl
  by_cases hli : l = i
  · subst hli
    simpa using hi
  · rw [decide_eq_false hli, Bool.eq_false_iff]
    intro hl'
    rcases Nat.lt_or_gt_of_ne hli with hlt | hlt
    · have between : U.knot (l + 1) ≤ U.knot i := h.knot_le hlt (by omega)
      rcases onSpan_iff.1 hi with ⟨a, _, a'⟩ | ⟨a, _, a'⟩ <;>
        rcases onSpan_iff.1 hl' with ⟨b, b₁, b'⟩ | ⟨b, b₁, b'⟩
      · exact absurd (lt_of_lt_of_le b₁ between) (not_lt.2 a)
      · exact absurd b' (ne_of_lt a')
      · exact absurd a' (ne_of_lt b')
      · exact absurd (lt_of_le_of_lt between a) (b₁ ▸ lt_irrefl _)
    · have between : U.knot (i + 1) ≤ U.knot l := h.knot_le hlt (by omega)
      rcases onSpan_iff.1 hi with ⟨a, a₁, a'⟩ | ⟨a, a₁, a'⟩ <;>
        rcases onSpan_iff.1 hl' with ⟨b, _, b'⟩ | ⟨b, _, b'⟩
      · exact absurd (lt_of_lt_of_le a₁ between) (not_lt.2 b)
      · exact absurd b' (ne_of_lt a')
      · exact absurd a' (ne_of_lt b')
      · exact absurd (lt_of_le_of_lt between b) (a₁ ▸ lt_irrefl _)

/-- The functions vanish away from their supports. -/
theorem coxDeBoor_eq_zero {U : KnotVector K} {finish t : K} {i m : Nat}
    (h : U.SpanOnly finish t i m) {p j : Nat} (hjm : j + p ≤ m) (out : j + p < i ∨ i < j) :
    U.coxDeBoor finish t p j = 0 := by
  induction p generalizing j with
  | zero =>
      have off : U.onSpan finish t j = false := by
        rw [h j (by omega)]
        exact decide_eq_false (by omega)
      simp [coxDeBoor, off]
  | succ p ih =>
      rw [coxDeBoor, ih (by omega) (by omega), ih (by omega) (by omega)]
      simp

/-! ## §3. The sum is the value of a polar form. -/

variable {V : Type} [AddCommGroup V] [Module K V]

/-- The share of a function and that of its right neighbour complement each other. -/
theorem portion_mix {lo hi t : K} (h : lo ≠ hi) (b : K) (v w : V) :
    (portion (hi - t) (hi - lo) * b) • v + (portion (t - lo) (hi - lo) * b) • w
      = b • mix ((t - lo) / (hi - lo)) v w := by
  have hd : hi - lo ≠ 0 := sub_ne_zero.2 h.symm
  have first : portion (t - lo) (hi - lo) = (t - lo) / (hi - lo) := by
    simp [portion, hd]
  have second : portion (hi - t) (hi - lo) = 1 - (t - lo) / (hi - lo) := by
    simp only [portion, beq_iff_eq, hd, if_false]
    field_simp
    ring
  rw [first, second, mix]
  module

/-- The functions that do not vanish on the span of `t`, with the values of a form. -/
theorem coxDeBoor_sum_stretch {U : KnotVector K} {finish t : K} {i m : Nat}
    (h : U.SpanOnly finish t i m) {p : Nat} (hp : p ≤ i) (hm : i + p ≤ m)
    (apart : ∀ r ≤ i, ∀ s, i < s → s ≤ i + p → U.knot r ≠ U.knot s)
    (f : PolarForm K V p) :
    ∑ r ∈ Finset.range (p + 1),
        U.coxDeBoor finish t p (i - p + r) • f (stretch U.knot (i - p + r + 1) p)
      = f (Multiset.replicate p t) := by
  induction p with
  | zero =>
      have on : U.onSpan finish t i = true := by
        rw [h i (by omega)]
        exact decide_eq_true rfl
      simp [coxDeBoor, on]
  | succ p ih =>
      have held := ih (by omega) (by omega) (fun r hr s hs hs' => apart r hr s hs (by omega))
        (f.hold {t} (by simp))
      simp only [PolarForm.hold_apply, Multiset.singleton_add] at held
      rw [Multiset.replicate_succ, ← held]
      -- one function more on each side, which vanishes on the span
      have low : U.coxDeBoor finish t p (i - (p + 1)) = 0 :=
        coxDeBoor_eq_zero h (by omega) (by omega)
      have high : U.coxDeBoor finish t p (i + 1) = 0 :=
        coxDeBoor_eq_zero h (by omega) (by omega)
      have split : ∀ r, U.coxDeBoor finish t (p + 1) (i - (p + 1) + r)
            • f (stretch U.knot (i - (p + 1) + r + 1) (p + 1))
          = (portion (t - U.knot (i - (p + 1) + r))
                (U.knot (i - (p + 1) + r + p + 1) - U.knot (i - (p + 1) + r))
              * U.coxDeBoor finish t p (i - (p + 1) + r))
              • f (stretch U.knot (i - (p + 1) + r + 1) (p + 1))
            + (portion (U.knot (i - p + r + p + 1) - t)
                (U.knot (i - p + r + p + 1) - U.knot (i - p + r))
              * U.coxDeBoor finish t p (i - p + r))
              • f (stretch U.knot (i - p + r) (p + 1)) := by
        intro r
        rw [coxDeBoor, show i - (p + 1) + r + p + 2 = i - p + r + p + 1 by omega,
            show i - (p + 1) + r + 1 = i - p + r by omega, add_smul]
      rw [Finset.sum_congr rfl fun r _ => split r, Finset.sum_add_distrib]
      rw [Finset.sum_range_succ' (fun r => (_ * U.coxDeBoor finish t p (i - (p + 1) + r)) • _),
          Finset.sum_range_succ (fun r => (_ * U.coxDeBoor finish t p (i - p + r)) • _)]
      rw [show i - (p + 1) + 0 = i - (p + 1) by omega, low,
          show i - p + (p + 1) = i + 1 by omega, high]
      simp only [mul_zero, zero_smul, add_zero]
      rw [← Finset.sum_add_distrib]
      refine Finset.sum_congr rfl fun r hr => ?_
      have hr' : r ≤ p := by
        have := Finset.mem_range.1 hr
        omega
      have hj : i - (p + 1) + (r + 1) = i - p + r := by omega
      have ends : U.knot (i - p + r) ≠ U.knot (i - p + r + p + 1) :=
        apart _ (by omega) _ (by omega) (by omega)
      have card : (stretch U.knot (i - p + r + 1) p).card + 1 = p + 1 := by simp
      rw [hj, add_comm, portion_mix ends, f.between card ends.symm t, stretch_succ,
          stretch_succ_right, show i - p + r + 1 + p = i - p + r + p + 1 by omega]

/-- **The Cox–de Boor sum is the value of the polar form of the span.** -/
theorem coxDeBoor_sum {U : KnotVector K} {finish t : K} {i n p : Nat}
    (h : U.SpanOnly finish t i (n + p - 1)) (hp : p ≤ i) (hn : i < n)
    (apart : ∀ r ≤ i, ∀ s, i < s → s ≤ i + p → U.knot r ≠ U.knot s)
    (f : PolarForm K V p) {P : Nat → V}
    (hP : ∀ j, j ≤ i → i ≤ j + p → P j = f (stretch U.knot (j + 1) p)) :
    ∑ j ∈ Finset.range n, U.coxDeBoor finish t p j • P j = f (Multiset.replicate p t) := by
  have support : ∑ j ∈ Finset.range n, U.coxDeBoor finish t p j • P j
      = ∑ j ∈ Finset.Ico (i - p) (i + 1), U.coxDeBoor finish t p j • P j := by
    refine (Finset.sum_subset (fun j hj => ?_) fun j hj hout => ?_).symm
    · have := Finset.mem_Ico.1 hj
      exact Finset.mem_range.2 (by omega)
    · have hj := Finset.mem_range.1 hj
      have out : ¬(i - p ≤ j ∧ j < i + 1) := fun e => hout (Finset.mem_Ico.2 e)
      rw [coxDeBoor_eq_zero h (by omega) (by omega), zero_smul]
  rw [support, Finset.sum_Ico_eq_sum_range, show i + 1 - (i - p) = p + 1 by omega,
      ← coxDeBoor_sum_stretch h hp (by omega) apart f]
  refine Finset.sum_congr rfl fun r hr => ?_
  have := Finset.mem_range.1 hr
  rw [hP _ (by omega) (by omega)]

end KnotVector

end RationalSpline
