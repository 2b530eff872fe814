/-
  RationalSpline.Proofs.Reach
  ───────────────────────────
  WHERE ONE KNOT STANDS FOR ALL.

  Behind a front the sweeps use the nearest knot for all knots within the number of its
  own raised copies (`ratioAfter`).  That changes nothing as long as they stay within the
  raised copies of the break before: `ReachesPast` names the pairs of breaks where they do
  not.  Without such a pair all raised points are right.  With one they are not: already
  the points of a straight line come out wrong.
-/
import RationalSpline.Proofs.ClampedSpline

namespace RationalSpline.Spline

variable {K : Type} {d p inc : Nat}

/-! ## §1. Pairs of breaks. -/

/-- The sweeps behind the break `m'` reach past the raised copies of the break `m`. -/
def ReachesPast (p inc : Nat) (m m' : KnotMultiplicity K) : Prop :=
  p + inc - (p - m.multiplicity) + 1 < p + inc - (p - m'.multiplicity)
    ∧ p + inc - (p - m.multiplicity) + 1 < (p - m'.multiplicity + 1) / 2

/-- Up to the degree 11 there is one such case. -/
theorem reachesPast_iff {m m' : KnotMultiplicity K} (bound : p + inc ≤ 11) (grows : 0 < inc)
    (pos : 0 < m.multiplicity) :
    ReachesPast p inc m m'
      ↔ p = 10 ∧ inc = 1 ∧ m.multiplicity = 1 ∧ m'.multiplicity = 3 := by
  unfold ReachesPast
  omega

/-- Two neighbours that are not the ends lie between them. -/
theorem infix_of_infix_ends {α : Type} {first last m m' : α} {ms : List α}
    (h : [m, m'] <:+: first :: (ms ++ [last])) (start : m ≠ first) (finish : m' ≠ last) :
    [m, m'] <:+: ms := by
  obtain ⟨before, after, parts⟩ := h
  cases before with
  | nil => exact absurd (List.cons.inj parts).1 start
  | cons x before =>
      have tail := (List.cons.inj parts).2
      rcases List.eq_nil_or_concat after with rfl | ⟨after, y, rfl⟩
      · have ends : before ++ [m] ++ [m'] = ms ++ [last] := by simpa using tail
        exact absurd (List.append_inj_right' ends rfl) (by simpa using finish)
      · have ends : before ++ [m, m'] ++ after ++ [y] = ms ++ [last] := by simpa using tail
        exact ⟨before, after, List.append_inj_left' ends rfl⟩

/-- **Between full ends no pair reaches past, except for a single knot before a triple one
when the degree goes from 10 to 11.** -/
theorem isChain_iff {a b : K} {ms : List (KnotMultiplicity K)} (bound : p + inc ≤ 11)
    (grows : 0 < inc) (pos : ∀ m ∈ ms, 0 < m.multiplicity) :
    (⟨a, p + 1⟩ :: (ms ++ [⟨b, p + 1⟩])).IsChain (fun m m' => ¬ReachesPast p inc m m')
      ↔ ¬(p = 10 ∧ inc = 1 ∧ ∃ x y, [⟨x, 1⟩, ⟨y, 3⟩] <:+: ms) := by
  have positive : ∀ m ∈ (⟨a, p + 1⟩ :: (ms ++ [⟨b, p + 1⟩]) : List (KnotMultiplicity K)),
      0 < m.multiplicity := by
    intro m hm
    rcases List.mem_cons.1 hm with rfl | hm
    · exact Nat.succ_pos p
    · rcases List.mem_append.1 hm with hm | hm
      · exact pos m hm
      · rw [List.mem_singleton.1 hm]
        exact Nat.succ_pos p
  rw [List.isChain_iff_forall_rel_of_append_cons_cons]
  constructor
  · rintro clear ⟨rfl, rfl, x, y, before, after, rfl⟩
    have pair := @clear ⟨x, 1⟩ ⟨y, 3⟩ (⟨a, 10 + 1⟩ :: before) (after ++ [⟨b, 10 + 1⟩]) (by simp)
    exact pair ((reachesPast_iff bound grows Nat.one_pos).2 ⟨rfl, rfl, rfl, rfl⟩)
  · intro none m m' before after parts reaches
    have member : m ∈ (⟨a, p + 1⟩ :: (ms ++ [⟨b, p + 1⟩]) : List (KnotMultiplicity K)) := by
      rw [parts]
      simp
    obtain ⟨rfl, rfl, one, three⟩ := (reachesPast_iff bound grows (positive m member)).1 reaches
    refine none ⟨rfl, rfl, m.knot, m'.knot, ?_⟩
    have pair : [m, m'] <:+: ⟨a, 10 + 1⟩ :: (ms ++ [⟨b, 10 + 1⟩]) := ⟨before, after, by
      rw [parts]
      simp⟩
    have inside := infix_of_infix_ends pair (by rintro rfl; simp at one)
      (by rintro rfl; simp at three)
    rw [← one, ← three]
    exact inside

/-! ## §2. Within the copies. -/

variable [Field K] [LinearOrder K]

theorem sweeps_congr {C C' : Nat → List K} {N : Nat} (same : ∀ n < N, C n = C' n)
    (points : List (Point K)) : sweeps C N points = sweeps C' N points := by
  induction N with
  | zero => rfl
  | succ N ih =>
      rw [sweeps, sweeps, ih fun n hn => same n (by omega), same N (Nat.lt_succ_self N)]

/-- The nearest knot is the same as all that it stands for. -/
def Front.Plain (p inc : Nat) (front : Front K) : Prop :=
  ∀ r, r + 1 < p + inc - front.added → r + 1 < (front.added + 1) / 2 →
    front.knotsBefore.getD 0 0 = front.knotsBefore.getD r 0

theorem Front.Plain.mendAfter_eq {front : Front K} (h : front.Plain p inc) (next : K)
    (raised : List (Point K)) :
    mendAfter front next (p + inc - front.added) raised = mendAfter front next 0 raised := by
  refine sweeps_congr (fun n hn => congrArg List.reverse (List.map_congr_left fun r hr => ?_)) _
  have small := List.mem_range.1 hr
  have knot : front.knotsBefore.getD (if r + 1 < p + inc - front.added then 0 else r) 0
      = front.knotsBefore.getD r 0 := by
    split
    · next near => exact h r near (by omega)
    · rfl
  rw [ratioAfter, ratioAfter, knot, if_neg (Nat.not_lt_zero _)]

theorem Front.Plain.advance_eq {front : Front K} (h : front.Plain p inc)
    (m : KnotMultiplicity K) (later : List (KnotMultiplicity K)) :
    front.advance (p + inc - front.added) p inc d m later = front.advance 0 p inc d m later := by
  unfold Front.advance Front.mended
  rw [h.mendAfter_eq]

/-- After the break `prev`, the front at `m` is plain unless the pair reaches past. -/
theorem Front.plain_advance {front : Front K} {prev m : KnotMultiplicity K}
    {later : List (KnotMultiplicity K)} {s : Nat} (previous : front.added = p - prev.multiplicity)
    (clear : ¬ReachesPast p inc prev m) : (front.advance s p inc d m later).Plain p inc := by
  intro r hr hr'
  show (List.replicate (p + inc - front.added) front.knot ++ front.knotsBefore).getD 0 0
    = (List.replicate (p + inc - front.added) front.knot ++ front.knotsBefore).getD r 0
  have within : r < p + inc - front.added := by
    by_contra beyond
    refine clear ⟨?_, ?_⟩
    · rw [← previous]
      exact lt_of_le_of_lt (by omega) hr
    · rw [← previous]
      exact lt_of_le_of_lt (by omega) hr'
  rw [List.getD_append _ _ _ _ (by rw [List.length_replicate]; omega),
      List.getD_append _ _ _ _ (by rwa [List.length_replicate]),
      List.getD_eq_getElem _ _ (by rw [List.length_replicate]; omega),
      List.getD_eq_getElem _ _ (by rwa [List.length_replicate]), List.getElem_replicate,
      List.getElem_replicate]

/-- **Where no pair reaches past, every knot stands for itself.** -/
theorem raiseWithin_eq {front : Front K} {prev : KnotMultiplicity K}
    {later : List (KnotMultiplicity K)} (plain : front.Plain p inc)
    (previous : front.added = p - prev.multiplicity)
    (clear : (prev :: later).IsChain fun m m' => ¬ReachesPast p inc m m') :
    raiseWithin (fun front => p + inc - front.added) p inc d later front
      = raiseWithin (fun _ => 0) p inc d later front := by
  induction later generalizing front prev with
  | nil => rfl
  | cons m later ih =>
      obtain ⟨first, rest⟩ := List.isChain_cons_cons.1 clear
      rw [raiseWithin, raiseWithin, plain.advance_eq]
      exact ih (Front.plain_advance previous first) rfl rest

theorem plain_startFront (p inc : Nat) (a : K) (P : List (Point K)) :
    (startFront p a P).Plain p inc := by
  intro r _ hr'
  rw [reach_startFront] at hr'
  exact absurd hr' (Nat.not_lt_zero _)

end RationalSpline.Spline
