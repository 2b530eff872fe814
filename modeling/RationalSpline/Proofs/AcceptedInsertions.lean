/-
  RationalSpline.Proofs.AcceptedInsertions
  ────────────────────────────────────────
  WHICH INSERTIONS ARE ACCEPTED, AND IN WHICH ORDER.

  Whether an insertion is accepted depends on the domain, the degree and the copies that
  are there, as long as the number of copies is a count.  It adds its copies to the knots
  and keeps the pieces of the curve.  So insertions accepted in one order are accepted in
  every other.  The knots afterwards are the same numbers in the same order, and they
  determine the control vectors.
-/
import RationalSpline.Proofs.FloatingOrder
import RationalSpline.Proofs.Padding
import RationalSpline.Proofs.Splitting
import RationalSpline.Proofs.Uniqueness
import RationalSpline.Curve.Edit

namespace RationalSpline.Curve

variable {K : Type} [Field K] [LinearOrder K] [IsStrictOrderedRing K] {b c e : Curve K} {u v : K}
  {m n : Nat}

/-! ## §1. Acceptance. -/

/-- When an insertion is accepted. -/
theorem Sound.exists_insertKnot_iff (h : c.Sound) :
    (∃ e, c.insertKnot u m = .ok e) ↔ 0 < m ∧ (c.domain.1 < u ∧ u < c.domain.2)
      ∧ c.knots.count u + m ≤ c.degree ∧ c.knots.count u + m < countLimit := by
  constructor
  · rintro ⟨e, ok⟩
    obtain ⟨pos, inside, room, limit, -⟩ := h.insertKnot_eq_ok_iff.1 ok
    exact ⟨pos, inside, room, limit⟩
  · rintro ⟨pos, inside, room, limit⟩
    exact ⟨_, h.insertKnot_eq_ok_iff.2 ⟨pos, inside, room, limit, rfl⟩⟩

section Compared

variable {α : Type} [Scalar α] {c : Curve α} {u : α}

/-- An insertion succeeds exactly if it is one of at least one copy, inside the domain, where the
degree has room for all copies; else it fails and leaves the curve as it was.  Of the others, the
ones whose number of copies would be no count have no error to say so. -/
structure DecidesInsertion [Precision α] [Analytic α] (c : Curve α) (u : α) (m : Nat) : Prop where
  /-- Which insertions succeed. -/
  succeeds : (∃ e, (Edit.insertKnot u m).apply c = ⟨e, none⟩)
    ↔ 1 ≤ m ∧ c.domain.1 < u ∧ u < c.domain.2 ∧ c.knots.count u + m ≤ c.degree
  /-- Which have neither a result nor an error. -/
  undefined : (Edit.insertKnot u m).apply c = ⟨c, some .undefined⟩
    ↔ 1 ≤ m ∧ c.domain.1 ≤ u ∧ u ≤ c.domain.2 ∧ countLimit ≤ c.knots.count u + m
  /-- What a failed insertion leaves. -/
  unchanged : ∀ f, ((Edit.insertKnot u m).apply c).failure = some f →
    (Edit.insertKnot u m).apply c = ⟨c, some f⟩

namespace Arranged

variable [Scalar.Compares α] (h : c.Arranged) {u : α} {m : Nat}
  (first : c.knots.superfluous c.order .start ≤ c.knots.knot 0)
  (last : c.knots.knot (c.knots.size - 1) ≤ c.knots.superfluous c.order .finish)
include h

include first last in
/-- Where the padding is in order, the copies that the degree has room for are computed. -/
theorem exists_insertTimes? (start : c.domain.1 < u) (finish : u < c.domain.2)
    (room : c.knots.count u + m ≤ c.degree) : ∃ S, c.spline.insertTimes? u m = some S := by
  let P : c.knots.Padding := ⟨_, _, first, last⟩
  obtain ⟨S, -, some, -⟩ := h.insertTimes?_padding (h.between_knot start finish) (fun _ => room) P P
  exact ⟨S, some⟩

/-- What passes the tests lies inside the domain. -/
theorem inside_of_tests (pos : 0 < m) (closed : c.domain.1 ≤ u ∧ u ≤ c.domain.2)
    (room : c.knots.count u + m ≤ c.degree)
    (clamped : ¬(u == c.domain.1 && !c.isClamped .start
      || u == c.domain.2 && !c.isClamped .finish) = true) :
    c.domain.1 < u ∧ u < c.domain.2 := by
  simp only [Bool.or_eq_true, Bool.and_eq_true, Bool.not_eq_true', not_or, not_and,
    Bool.not_eq_false] at clamped
  exact h.inside_of_room pos closed room clamped.1 clamped.2

include first last in
theorem exists_insertKnot_iff (count : c.order < countLimit) :
    (∃ e, c.insertKnot u m = .ok e)
      ↔ 1 ≤ m ∧ c.domain.1 < u ∧ u < c.domain.2 ∧ c.knots.count u + m ≤ c.degree := by
  obtain ⟨two, enough, size, degree⟩ := h.counts
  unfold Curve.insertKnot
  dsimp only
  constructor
  · rintro ⟨e, ok⟩
    split_ifs at ok with none closed limit full clamped
    have pos := Nat.pos_of_ne_zero none
    have room := not_lt.1 full
    obtain ⟨start, finish⟩ := h.inside_of_tests pos closed room clamped
    exact ⟨pos, start, finish, room⟩
  · rintro ⟨pos, start, finish, room⟩
    obtain ⟨S, some⟩ := h.exists_insertTimes? first last start finish room
    have apart : (u == c.domain.1) = false ∧ (u == c.domain.2) = false :=
      ⟨Scalar.beq_eq_false_of_gt start, Scalar.beq_eq_false_of_lt finish⟩
    refine ⟨c.withSpline S, ?_⟩
    rw [if_neg (Nat.ne_of_gt pos),
        if_neg (not_not.2 ⟨Scalar.le_of_lt start, Scalar.le_of_lt finish⟩),
        if_neg (by omega), if_neg (not_lt.2 room), if_neg (by simp [apart]), some]

include first last in
theorem insertKnot_eq_undefined_iff :
    c.insertKnot u m = .error .undefined
      ↔ 1 ≤ m ∧ c.domain.1 ≤ u ∧ u ≤ c.domain.2 ∧ countLimit ≤ c.knots.count u + m := by
  unfold Curve.insertKnot
  dsimp only
  constructor
  · intro undefined
    split_ifs at undefined with none closed limit full clamped
    · cases undefined
    · exact ⟨Nat.pos_of_ne_zero none, closed.1, closed.2, limit⟩
    · cases undefined
    · cases undefined
    · -- behind the tests nothing is in the way
      have room := not_lt.1 full
      obtain ⟨start, finish⟩ := h.inside_of_tests (Nat.pos_of_ne_zero none) closed room clamped
      obtain ⟨S, some⟩ := h.exists_insertTimes? first last start finish room
      rw [some] at undefined
      cases undefined
    · cases undefined
  · rintro ⟨pos, start, finish, limit⟩
    rw [if_neg (Nat.ne_of_gt pos), if_neg (not_not.2 ⟨start, finish⟩), if_pos limit]

include first last in
/-- **In all numbers that compare**, an insertion is decided by the domain, the degree and the
copies that are there, if the knots that padding adds are in order. -/
theorem decidesInsertion [Precision α] [Analytic α] (count : c.order < countLimit) (u : α)
    (m : Nat) : c.DecidesInsertion u m := by
  have apply : (Edit.insertKnot u m).apply c = .ofResult c (c.insertKnot u m) := rfl
  refine ⟨?_, ?_, fun f failed => ?_⟩
  · simp only [apply, Outcome.ofResult_eq_none_iff]
    exact h.exists_insertKnot_iff first last count
  · rw [apply, Outcome.ofResult_eq_some_iff, and_iff_right rfl]
    exact h.insertKnot_eq_undefined_iff first last
  · obtain ⟨-, error⟩ := Outcome.of_failure failed
    rw [apply, error]
    rfl

end Arranged

end Compared

/-- **Which insertions into a valid curve succeed.**  Over an ordered field those inside the domain
for whose copies the degree has room.  In all numbers that compare the same is true if the knots
that padding adds are in order. -/
theorem insertKnot_succeeds_iff [Precision K] [Precision.Exact K] [Analytic K] :
    (∀ c : Curve K, c.isValid = true → c.order < countLimit → ∀ u m, c.DecidesInsertion u m)
      ∧ ∀ (α : Type) [Scalar α] [Scalar.Compares α] [Precision α] [Analytic α] (c : Curve α),
        c.isValid = true → c.order < countLimit →
          c.knots.superfluous c.order .start ≤ c.knots.knot 0 →
          c.knots.knot (c.knots.size - 1) ≤ c.knots.superfluous c.order .finish →
            ∀ u m, c.DecidesInsertion u m := by
  refine ⟨fun c valid count u m => ?_, fun α _ _ _ _ c valid count first last u m =>
    (arranged_of_isValid valid).decidesInsertion first last count u m⟩
  have ordered := (regular_of_isValid valid).toSound.ordered
  exact (arranged_of_isValid valid).decidesInsertion (ordered.superfluous_start_le c.order)
    (ordered.le_superfluous_finish c.order) count u m

/-- A second copy of a knot is accepted, a further one at a clamped end is not. -/
theorem insertKnot_succeeds_openStart :
    openStart.isValid = true ∧ openStart.order < countLimit
      ∧ (∃ e, (Edit.insertKnot 2 1).apply openStart = ⟨e, none⟩)
      ∧ ¬∃ e, (Edit.insertKnot 3 1).apply openStart = ⟨e, none⟩ := by
  have valid : openStart.isValid = true := by decide +kernel
  have count : openStart.order < countLimit := by decide
  obtain ⟨decides, -⟩ := insertKnot_succeeds_iff (K := ℚ)
  have inside := (decides openStart valid count 2 1).succeeds
  have finish := (decides openStart valid count 3 1).succeeds
  refine ⟨valid, count, inside.2 (by decide +kernel), fun ok => ?_⟩
  exact absurd (finish.1 ok) (by decide +kernel)

/-- Copies whose number is no count are far more than the degree has room for, and yet they are
not refused for it. -/
theorem openStart_insertKnot_undefined :
    openStart.isValid = true ∧ openStart.degree < openStart.knots.count 2 + (countLimit - 1)
      ∧ openStart.insertKnot 2 (countLimit - 1) = .error .undefined := by
  have valid : openStart.isValid = true := by decide +kernel
  have inside : (1 : ℚ) ≤ 2 ∧ (2 : ℚ) ≤ 3 := by decide +kernel
  have copies : openStart.knots.count 2 = 1 := by decide +kernel
  have sound := (regular_of_isValid valid).toSound
  refine ⟨valid, ?_, sound.insertKnot_eq_undefined_iff.2 ⟨by decide, inside, ?_⟩⟩
  · rw [copies]
    decide
  · rw [copies]
    decide

/-- An arc whose knots are so far out that twice the last of them is infinite. -/
def farArc : Curve Float where
  dimension := 1
  order := 3
  points := .cartesian [[0.0], [1.0], [0.0]]
  knots := ⟨[-1.7e308, -1.6e308, -1.5e308, -1.4e308]⟩

/-- The knot that padding adds behind the far arc is not in order, and a knot inside its domain is
not inserted. -/
theorem farArc_insertKnot :
    farArc.isValid = true ∧ farArc.knots.superfluous 3 .finish < farArc.knots.knot 0
      ∧ farArc.domain.1 < -1.55e308 ∧ -1.55e308 < farArc.domain.2
      ∧ farArc.knots.count (-1.55e308) + 1 ≤ farArc.degree
      ∧ (farArc.insertKnot (-1.55e308) 1 matches .error .undefined) = true := by
  refine ⟨?_, ?_, ?_, ?_, ?_, ?_⟩ <;> decide +kernel

/-! ## §2. One insertion. -/

/-- Curves that keep the pieces of one curve are equal if they have the same knots, in
whatever order these were added. -/
theorem Regular.eq_of_perm (hb : b.Sound) (hc : c.Regular) (he : e.Sound) (keeps : Keeps b c)
    (keeps' : Keeps b e) (perm : e.knots.values.Perm c.knots.values) : e = c := by
  have values : e.knots.values = c.knots.values :=
    perm.eq_of_pairwise (fun _ _ _ _ => le_antisymm) he.ordered hc.ordered
  exact hc.eq_of_keeps hb he keeps keeps' (congrArg KnotVector.mk values)

/-- **What an accepted insertion does.** -/
theorem Regular.insertKnot_spec (h : c.Regular) (ok : c.insertKnot u m = .ok e) :
    e.Regular ∧ Keeps c e ∧ e.knots.values.Perm (c.knots.values ++ List.replicate m u) := by
  refine ⟨h.insertKnot ok, ?_⟩
  obtain ⟨start, finish, room, rfl⟩ := h.toSound.inside_of_insertKnot ok
  obtain ⟨-, keeps, -, -⟩ := h.toSound.insertTimes start.le finish fun _ => room
  exact ⟨keeps, h.toSound.perm_insertTimes ⟨u, m⟩ start finish room⟩

/-- The copies of a number after it. -/
theorem Regular.count_insertKnot (h : c.Regular) (ok : c.insertKnot u m = .ok e) (v : K) :
    e.knots.count v = c.knots.count v + if u = v then m else 0 := by
  obtain ⟨-, -, perm⟩ := h.insertKnot_spec ok
  rw [KnotVector.count_eq_list_count, KnotVector.count_eq_list_count, perm.count_eq,
      List.count_append, List.count_replicate]
  simp only [beq_iff_eq]

/-! ## §3. Two insertions. -/

/-- What two insertions do. -/
theorem Regular.insertKnot_twice (h : c.Regular) (first : c.insertKnot u m = .ok b)
    (second : b.insertKnot v n = .ok e) :
    e.Regular ∧ Keeps c e
      ∧ e.knots.values.Perm (c.knots.values ++ (List.replicate m u ++ List.replicate n v)) := by
  obtain ⟨regular, keeps, perm⟩ := h.insertKnot_spec first
  obtain ⟨after, kept, perm'⟩ := regular.insertKnot_spec second
  refine ⟨after, keeps.trans kept, ?_⟩
  rw [← List.append_assoc]
  exact perm'.trans (perm.append_right _)

/-- When both are accepted. -/
theorem Regular.exists_insertKnot_twice_iff (h : c.Regular) :
    (∃ b e, c.insertKnot u m = .ok b ∧ b.insertKnot v n = .ok e) ↔
      (0 < m ∧ (c.domain.1 < u ∧ u < c.domain.2)
        ∧ c.knots.count u + m ≤ c.degree ∧ c.knots.count u + m < countLimit)
      ∧ 0 < n ∧ (c.domain.1 < v ∧ v < c.domain.2)
        ∧ c.knots.count v + (if u = v then m else 0) + n ≤ c.degree
        ∧ c.knots.count v + (if u = v then m else 0) + n < countLimit := by
  constructor
  · rintro ⟨b, e, first, second⟩
    obtain ⟨regular, keeps, -⟩ := h.insertKnot_spec first
    have accepted := regular.toSound.exists_insertKnot_iff.1 ⟨e, second⟩
    rw [keeps.domain, keeps.degree, h.count_insertKnot first] at accepted
    exact ⟨h.toSound.exists_insertKnot_iff.1 ⟨b, first⟩, accepted⟩
  · rintro ⟨accepted, accepted'⟩
    obtain ⟨b, first⟩ := h.toSound.exists_insertKnot_iff.2 accepted
    obtain ⟨regular, keeps, -⟩ := h.insertKnot_spec first
    rw [← keeps.domain, ← keeps.degree, ← h.count_insertKnot first] at accepted'
    obtain ⟨e, second⟩ := regular.toSound.exists_insertKnot_iff.2 accepted'
    exact ⟨b, e, first, second⟩

/-- **Two insertions can be made in either order.** -/
theorem Regular.insertKnot_comm (h : c.Regular) (first : c.insertKnot u m = .ok b)
    (second : b.insertKnot v n = .ok e) :
    ∃ b', c.insertKnot v n = .ok b' ∧ b'.insertKnot u m = .ok e := by
  obtain ⟨⟨pos, inside, room, limit⟩, pos', inside', room', limit'⟩ :=
    h.exists_insertKnot_twice_iff.1 ⟨b, e, first, second⟩
  -- copies of one number add up in either order
  have total : c.knots.count u + (if v = u then n else 0) + m ≤ c.degree
      ∧ c.knots.count u + (if v = u then n else 0) + m < countLimit := by
    by_cases same : u = v
    · subst same
      simp only [if_true] at room' limit' ⊢
      omega
    · rw [if_neg (Ne.symm same)]
      exact ⟨room, limit⟩
  obtain ⟨b', e', first', second'⟩ := h.exists_insertKnot_twice_iff.2
    ⟨⟨pos', inside', by omega, by omega⟩, pos, inside, total⟩
  obtain ⟨after, keeps, perm⟩ := h.insertKnot_twice first second
  obtain ⟨after', keeps', perm'⟩ := h.insertKnot_twice first' second'
  have equal := Regular.eq_of_perm h.toSound after after'.toSound keeps keeps'
    ((perm'.trans (List.perm_append_comm.append_left _)).trans perm.symm)
  exact ⟨b', first', equal ▸ second'⟩

/-- **Two insertions of one knot are one insertion of all its copies.** -/
theorem Regular.insertKnot_add (h : c.Regular) (pos : 0 < m) (pos' : 0 < n) :
    c.insertKnot u (m + n) = .ok e ↔
      ∃ b, c.insertKnot u m = .ok b ∧ b.insertKnot u n = .ok e := by
  have accepted := h.exists_insertKnot_twice_iff (u := u) (v := u) (m := m) (n := n)
  have accepted' := h.toSound.exists_insertKnot_iff (u := u) (m := m + n)
  rw [if_pos rfl] at accepted
  have equal : ∀ {a b e : Curve K}, c.insertKnot u (m + n) = .ok a → c.insertKnot u m = .ok b →
      b.insertKnot u n = .ok e → e = a := fun once first second => by
    obtain ⟨after, keeps, perm⟩ := h.insertKnot_spec once
    obtain ⟨after', keeps', perm'⟩ := h.insertKnot_twice first second
    rw [List.replicate_append_replicate] at perm'
    exact Regular.eq_of_perm h.toSound after after'.toSound keeps keeps' (perm'.trans perm.symm)
  constructor
  · intro once
    obtain ⟨-, inside, room, limit⟩ := accepted'.1 ⟨e, once⟩
    obtain ⟨b, e', first, second⟩ := accepted.2
      ⟨⟨pos, inside, by omega, by omega⟩, pos', inside, by omega, by omega⟩
    exact ⟨b, first, equal once first second ▸ second⟩
  · rintro ⟨b, first, second⟩
    obtain ⟨⟨-, inside, -, -⟩, -, -, room, limit⟩ := accepted.1 ⟨b, e, first, second⟩
    obtain ⟨a, once⟩ := accepted'.2 ⟨by omega, inside, by omega, by omega⟩
    exact equal once first second ▸ once

/-! ## §4. One by one. -/

omit [IsStrictOrderedRing K] in
/-- Several insertions succeed if the first does and the others do behind it. -/
theorem insertEach_cons_eq (a : KnotMultiplicity K) (ms : List (KnotMultiplicity K)) :
    c.insertEach (a :: ms) = ⟨e, none⟩ ↔
      ∃ b, c.insertKnot a.knot a.multiplicity = .ok b ∧ b.insertEach ms = ⟨e, none⟩ := by
  rw [insertEach]
  cases c.insertKnot a.knot a.multiplicity with
  | error f => simp
  | ok b => simp

/-- **One insertion of several copies is as many insertions of one.** -/
theorem Regular.insertEach_replicate (h : c.Regular) (m : Nat) :
    c.insertEach (List.replicate (m + 1) ⟨u, 1⟩) = ⟨e, none⟩
      ↔ c.insertKnot u (m + 1) = .ok e := by
  induction m generalizing c with
  | zero =>
      rw [List.replicate_succ, insertEach_cons_eq]
      constructor
      · rintro ⟨b, once, rest⟩
        cases show (⟨b, none⟩ : Outcome K) = ⟨e, none⟩ from rest
        exact once
      · exact fun once => ⟨e, once, rfl⟩
  | succ m ih =>
      rw [List.replicate_succ, insertEach_cons_eq, Nat.add_comm (m + 1) 1,
          h.insertKnot_add Nat.one_pos (Nat.succ_pos m)]
      constructor
      · rintro ⟨b, first, rest⟩
        exact ⟨b, first, (ih (h.insertKnot first)).1 rest⟩
      · rintro ⟨b, first, rest⟩
        exact ⟨b, first, (ih (h.insertKnot first)).2 rest⟩

/-- **Insertion does not depend on order or batching.**  Two insertions into a valid curve
that succeed one after the other succeed in the opposite order, with the same knots and
control vectors at the end.  One insertion of several copies succeeds exactly if as many
insertions of one copy do, and gives the same curve. -/
theorem insertKnot_order_irrelevant [Precision K] [Precision.Exact K] (valid : c.isValid = true) :
    (∀ u v m n b e, c.insertKnot u m = .ok b → b.insertKnot v n = .ok e →
        ∃ b', c.insertKnot v n = .ok b' ∧ b'.insertKnot u m = .ok e)
      ∧ ∀ u m e, c.insertKnot u m = .ok e ↔
        0 < m ∧ c.insertEach (List.replicate m ⟨u, 1⟩) = ⟨e, none⟩ := by
  have regular := regular_of_isValid valid
  refine ⟨fun u v m n b e first second => regular.insertKnot_comm first second, fun u m e => ?_⟩
  cases m with
  | zero =>
      refine ⟨fun ok => ?_, fun ⟨pos, _⟩ => absurd pos (Nat.lt_irrefl 0)⟩
      exact absurd (regular.toSound.insertKnot_eq_ok_iff.1 ok).1 (Nat.lt_irrefl 0)
  | succ m => rw [regular.insertEach_replicate m, and_iff_right (Nat.succ_pos m)]

/-- Two knots within one span of a rational curve, and two copies of one. -/
theorem insertKnot_order_openStart :
    openStart.isValid = true
      ∧ (∃ e b, openStart.insertKnot (5 / 4) 1 = .ok b ∧ b.insertKnot (3 / 2) 1 = .ok e
        ∧ e.knots.values = [0, 1, 5 / 4, 3 / 2, 2, 3, 3])
      ∧ ∃ e, openStart.insertEach [⟨3 / 2, 1⟩, ⟨3 / 2, 1⟩] = ⟨e, none⟩ ∧ e.pointCount = 6 := by
  have valid : openStart.isValid = true := by decide +kernel
  have first : openStart.insertKnot (3 / 2) 1
      = .ok ⟨1, 3, .homogeneous [[0, 1], [3 / 2, 1], [9 / 4, 5 / 4], [3, 2], [1, 1]],
          ⟨[0, 1, 3 / 2, 2, 3, 3]⟩⟩ := eq_ok_of_toOption (by decide +kernel)
  have second : insertKnot
      ⟨1, 3, .homogeneous [[0, 1], [3 / 2, 1], [9 / 4, 5 / 4], [3, 2], [1, 1]],
        ⟨[0, 1, 3 / 2, 2, 3, 3]⟩⟩ (5 / 4 : ℚ) 1
      = .ok ⟨1, 3, .homogeneous
          [[0, 1], [5 / 4, 1], [27 / 16, 17 / 16], [9 / 4, 5 / 4], [3, 2], [1, 1]],
          ⟨[0, 1, 5 / 4, 3 / 2, 2, 3, 3]⟩⟩ := eq_ok_of_toOption (by decide +kernel)
  have twice : openStart.insertKnot (3 / 2) 2
      = .ok ⟨1, 3, .homogeneous
          [[0, 1], [3 / 2, 1], [15 / 8, 9 / 8], [9 / 4, 5 / 4], [3, 2], [1, 1]],
          ⟨[0, 1, 3 / 2, 3 / 2, 2, 3, 3]⟩⟩ := eq_ok_of_toOption (by decide +kernel)
  obtain ⟨swapped, batch⟩ := insertKnot_order_irrelevant valid
  obtain ⟨b, first', second'⟩ := swapped _ _ _ _ _ _ first second
  exact ⟨valid, ⟨_, b, first', second', rfl⟩, _, ((batch _ _ _).1 twice).2, rfl⟩

end RationalSpline.Curve
