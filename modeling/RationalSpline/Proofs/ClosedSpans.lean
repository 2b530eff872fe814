/-
  RationalSpline.Proofs.ClosedSpans
  ─────────────────────────────────
  A CURVE ON A CLOSED SPAN.

  The definition gives the right end of a span to the next one.  No knot of a regular
  curve is repeated more often than the degree, so the forms of two neighbouring spans
  agree where they meet: the curve is the diagonal of the form of a span up to and
  including its right end.
-/
import RationalSpline.Proofs.Smoothness

namespace RationalSpline

variable {K : Type} [Field K] [LinearOrder K] {d p : Nat}

/-- A mixture lies between what is mixed. -/
theorem mix_mem [IsStrictOrderedRing K] {a b v : K} (le : a ≤ b) (h₀ : 0 ≤ v) (h₁ : v ≤ 1) :
    a ≤ mix v a b ∧ mix v a b ≤ b := by
  simp only [mix, smul_eq_mul]
  constructor <;> nlinarith

namespace Curve

variable {c : Curve K} {F : Pieces K d p}

/-- A span of the padded knots lies in the domain. -/
theorem Sound.span_within [IsStrictOrderedRing K] (h : c.Sound) {i : Nat} (hi : c.degree ≤ i)
    (hi' : i < c.pointCount) : c.domain.1 ≤ c.spline.knots.knot i
      ∧ c.spline.knots.knot (i + 1) ≤ c.domain.2 := by
  have size : c.spline.knots.size = c.pointCount + c.degree + 1 := size_padded_knots h
  rw [h.domain_start, h.domain_finish]
  exact ⟨h.ordered_padded.knot_le hi (by omega), h.ordered_padded.knot_le (by omega) (by omega)⟩

variable [IsStrictOrderedRing K]

/-- **On each closed span the curve is the diagonal of the form it follows.** -/
theorem Regular.definedVector_on (h : c.Regular) (hd : c.vectorSize = d) (hp : c.degree = p)
    (follows : Follows c.spline.knots c.points.vectors F) {i : Nat} (hpi : p ≤ i)
    (hi : i < c.pointCount) {t t' : K} (low : c.spline.knots.knot i < t')
    (high : t' < c.spline.knots.knot (i + 1)) (h₀ : c.spline.knots.knot i ≤ t)
    (h₁ : t ≤ c.spline.knots.knot (i + 1)) :
    c.definedVector t = Point.ofVec (F t' (Multiset.replicate p t)) := by
  have ordered := h.toSound.ordered_padded
  have size : c.spline.knots.size = c.pointCount + c.degree + 1 := size_padded_knots h.toSound
  obtain ⟨start, finish⟩ := h.toSound.span_within (hp ▸ hpi) hi
  rcases lt_or_eq_of_le h₁ with inside | rfl
  · exact h.toSound.definedVector_eq hd hp follows hpi hi
      (KnotVector.onSpan_iff.2 (.inl ⟨h₀, inside, lt_of_lt_of_le inside finish⟩)) low high
  rcases lt_or_eq_of_le finish with before | last
  · -- the end of the span belongs to a later one, behind the copies of the knot between them
    obtain ⟨j, hj, hj', on⟩ :=
      h.toSound.exists_onSpan h.domain_lt (le_trans start h₀) finish
    obtain ⟨s, low', high'⟩ := exists_between (KnotVector.knot_lt_of_onSpan on)
    have reach : c.spline.knots.knot j ≤ c.spline.knots.knot (i + 1)
        ∧ c.spline.knots.knot (i + 1) < c.spline.knots.knot (j + 1) := by
      rcases KnotVector.onSpan_iff.1 on with ⟨le, lt, -⟩ | ⟨-, -, same⟩
      · exact ⟨le, lt⟩
      · exact absurd same before.ne
    have later : i + 1 < j + 1 := ordered.lt_of_knot_lt (by omega) reach.2
    have copies : ∀ r < j - i, c.spline.knots.knot (i + 1 + r) = c.spline.knots.knot (i + 1) :=
      fun r hr => le_antisymm (le_trans (ordered.knot_le (by omega) (by omega)) reach.1)
        (ordered.knot_le (by omega) (by omega))
    have few : j - i ≤ p := by
      have compact : c.knots.size = c.pointCount + c.degree - 1 := by
        have padded : c.spline.knots.size = c.knots.size + 2 := c.size_knots_spline
        omega
      have count := h.ordered.le_count (i := i) (n := j - i)
        (u := c.spline.knots.knot (i + 1)) (by omega) fun r hr => by
          rw [← copies r hr, show i + 1 + r = i + r + 1 by omega]
          exact (KnotVector.knot_padded _ _ (by omega)).symm
      exact hp ▸ count.trans (h.count_le _)
    rw [h.toSound.definedVector_eq hd hp follows (hp ▸ hj) hj' on low' high']
    congr 1
    refine (follows.agree ordered (hp ▸ size) hpi (by omega) hj' low high low' high'
      (Multiset.card_replicate _ _) ?_).symm
    rw [stretch_eq_replicate copies]
    exact Multiset.replicate_le_replicate _ |>.2 few
  · exact h.toSound.definedVector_eq hd hp follows hpi hi
      (KnotVector.onSpan_iff.2 (.inr ⟨lt_trans low high, rfl, last⟩)) low high

end Curve

end RationalSpline
