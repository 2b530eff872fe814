/-
  RationalSpline.Proofs.Breaks
  ────────────────────────────
  THE DISTINCT KNOTS OF AN ORDERED VECTOR.

  A list is determined by its runs, and any list of repeated knots whose neighbours
  differ is the list of runs of what it stands for.  So the runs of a clamped vector are
  its two ends with the runs of its interior between them, and the boundaries of the
  spans are the knots of the runs of the domain.
-/
import RationalSpline.Proofs.RaisedShape
import RationalSpline.Proofs.Arranged

namespace RationalSpline

variable {K : Type} [Field K] [LinearOrder K]

namespace KnotVector

/-! ## §1. Runs. -/

/-- Copies of a knot before knots that begin with another form one run. -/
theorem runs_replicate_append {n : Nat} (pos : 0 < n) {u : K} {rest : List K}
    (other : ∀ m ∈ (runs rest).head?, u ≠ m.knot) :
    runs (List.replicate n u ++ rest) = ⟨u, n⟩ :: runs rest := by
  induction n with
  | zero => exact absurd pos (lt_irrefl _)
  | succ n ih =>
      rw [List.replicate_succ, List.cons_append, runs]
      rcases Nat.eq_zero_or_pos n with rfl | pos'
      · rw [List.replicate_zero, List.nil_append]
        cases first : runs rest with
        | nil => rfl
        | cons m ms =>
            have differs : u ≠ m.knot := other m (by rw [first]; rfl)
            simp [differs]
      · rw [ih pos']
        simp

/-- The runs of what a list of repeated knots stands for. -/
theorem runs_flatMap {ms : List (KnotMultiplicity K)}
    (chain : ms.IsChain fun m m' => m.knot ≠ m'.knot) (pos : ∀ m ∈ ms, 0 < m.multiplicity) :
    runs (ms.flatMap KnotMultiplicity.occurrences) = ms := by
  induction ms with
  | nil => rfl
  | cons m ms ih =>
      have rest := ih (List.isChain_cons.1 chain).2 fun x hx =>
        pos x (List.mem_cons_of_mem _ hx)
      rw [List.flatMap_cons, KnotMultiplicity.occurrences,
          runs_replicate_append (pos m List.mem_cons_self)
            (by rw [rest]; exact (List.isChain_cons.1 chain).1), rest]

theorem runs_spec (values : List K) :
    ((runs values).IsChain fun m m' => m.knot ≠ m'.knot)
      ∧ ∀ m ∈ runs values, 0 < m.multiplicity := by
  induction values with
  | nil => exact ⟨.nil, by simp [runs]⟩
  | cons k ks ih =>
      obtain ⟨chain, pos⟩ := ih
      rw [runs]
      split
      · exact ⟨.singleton _, by simp⟩
      · next m ms rest =>
          rw [rest] at chain pos
          split
          · next same =>
              obtain rfl : k = m.knot := eq_of_beq same
              refine ⟨?_, ?_⟩
              · rw [List.isChain_cons] at chain ⊢
                exact chain
              · intro x hx
                rcases List.mem_cons.1 hx with rfl | hx
                · exact Nat.succ_pos _
                · exact pos x (List.mem_cons_of_mem _ hx)
          · next differs =>
              refine ⟨List.isChain_cons_cons.2 ⟨fun e => differs (beq_iff_eq.2 e), chain⟩, ?_⟩
              intro x hx
              rcases List.mem_cons.1 hx with rfl | hx
              · exact Nat.one_pos
              · exact pos x hx

/-- Backwards the runs are the same. -/
theorem runs_reverse (values : List K) : runs values.reverse = (runs values).reverse := by
  obtain ⟨chain, pos⟩ := runs_spec values
  have backwards : (runs values).reverse.flatMap KnotMultiplicity.occurrences
      = values.reverse := by
    have every : List.reverse ∘ KnotMultiplicity.occurrences (α := K)
        = KnotMultiplicity.occurrences := by
      funext m
      exact List.reverse_replicate
    have := congrArg List.reverse (flatMap_runs values)
    rwa [List.reverse_flatMap, every] at this
  rw [← backwards]
  exact runs_flatMap (List.isChain_reverse.2 (chain.imp fun _ _ => Ne.symm))
    fun m hm => pos m (List.mem_reverse.1 hm)

/-- Runs of numbers are runs of their images, if these stay distinct. -/
theorem runs_map {f : K → K} (injective : Function.Injective f) (values : List K) :
    runs (values.map f) = (runs values).map fun m => ⟨f m.knot, m.multiplicity⟩ := by
  induction values with
  | nil => rfl
  | cons k ks ih =>
      rw [List.map_cons, runs, runs, ih]
      cases runs ks with
      | nil => rfl
      | cons m ms =>
          have same : (f k == f m.knot) = (k == m.knot) := by
            rw [Bool.eq_iff_iff, beq_iff_eq, beq_iff_eq, injective.eq_iff]
          simp only [List.map_cons, same]
          split <;> rfl

section Compared

variable {α : Type} [Scalar α]

/-- The first run is one of the first number. -/
theorem exists_runs_cons (k : α) (ks : List α) :
    ∃ n ms, runs (k :: ks) = ⟨k, n⟩ :: ms := by
  rw [runs]
  split
  · exact ⟨_, _, rfl⟩
  · split <;> exact ⟨_, _, rfl⟩

/-- A run is made of knots of the list. -/
theorem knot_mem_of_mem_runs {values : List α} {m : KnotMultiplicity α} (h : m ∈ runs values) :
    m.knot ∈ values := by
  induction values generalizing m with
  | nil => cases h
  | cons k ks ih =>
      rw [runs] at h
      split at h
      · cases List.mem_singleton.1 h
        exact List.mem_cons_self
      · next first rest parts =>
          have later : ∀ x ∈ first :: rest, x.knot ∈ k :: ks := fun x hx =>
            List.mem_cons_of_mem _ (ih (parts ▸ hx))
          split at h
          · rcases List.mem_cons.1 h with rfl | h
            · exact List.mem_cons_self
            · exact later m (List.mem_cons_of_mem _ h)
          · rcases List.mem_cons.1 h with rfl | h
            · exact List.mem_cons_self
            · exact later m h

/-- In order, the runs of a list: each number has one, with all its copies. -/
structure RunsOf (values : List α) (ms : List (KnotMultiplicity α)) : Prop where
  /-- The numbers increase. -/
  distinct : ms.Pairwise fun m m' => m.knot < m'.knot
  /-- Each has its copies. -/
  counts : ∀ m ∈ ms, values.countP (· == m.knot) = m.multiplicity

namespace RunsOf

variable [Scalar.Compares α] {k x : α} {ks xs : List α} {n : Nat}
  {ms : List (KnotMultiplicity α)}

/-- A number is no copy of a larger one. -/
theorem countP_cons {m : KnotMultiplicity α} (lt : k < m.knot)
    (count : ks.countP (· == m.knot) = m.multiplicity) :
    (k :: ks).countP (· == m.knot) = m.multiplicity := by
  rw [List.countP_cons, Scalar.beq_eq_false_of_lt lt, count]
  rfl

/-- One more copy of the first number. -/
theorem copy (h : RunsOf (x :: xs) (⟨x, n⟩ :: ms)) (le : k ≤ x) (same : (k == x) = true) :
    RunsOf (k :: x :: xs) (⟨k, n + 1⟩ :: ms) := by
  have above : ∀ m ∈ ms, k < m.knot := fun m hm =>
    Scalar.lt_of_le_of_lt le (List.rel_of_pairwise_cons h.distinct hm)
  refine ⟨List.pairwise_cons.2 ⟨above, h.distinct.of_cons⟩, fun m hm => ?_⟩
  rcases List.mem_cons.1 hm with rfl | hm
  · have count := h.counts _ List.mem_cons_self
    simp only [Scalar.beq_congr same]
    rw [List.countP_cons, count, same]
    rfl
  · exact countP_cons (above m hm) (h.counts m (List.mem_cons_of_mem _ hm))

/-- A number below all others. -/
theorem below (h : RunsOf ks ms) (self : k ≤ k) (lt : ∀ y ∈ ks, k < y)
    (lt' : ∀ m ∈ ms, k < m.knot) : RunsOf (k :: ks) (⟨k, 1⟩ :: ms) := by
  refine ⟨List.pairwise_cons.2 ⟨lt', h.distinct⟩, fun m hm => ?_⟩
  rcases List.mem_cons.1 hm with rfl | hm
  · have none : ks.countP (· == k) = 0 := List.countP_eq_zero.2 fun y hy =>
      Bool.eq_false_iff.1 (Scalar.beq_eq_false_of_gt (lt y hy))
    rw [List.countP_cons, none, Scalar.Compares.beq_iff.2 ⟨self, self⟩]
    rfl
  · exact countP_cons (lt' m hm) (h.counts m hm)

end RunsOf

/-- **In order, each number has one run, and the run has all its copies.** -/
theorem runs_of_pairwise [Scalar.Compares α] {values : List α} (h : values.Pairwise (· ≤ ·))
    (self : ∀ x ∈ values, x ≤ x) : RunsOf values (runs values) := by
  induction values with
  | nil => exact ⟨.nil, nofun⟩
  | cons k ks ih =>
      have parts := ih h.of_cons fun x hx => self x (List.mem_cons_of_mem _ hx)
      have once := self k List.mem_cons_self
      cases ks with
      | nil => exact parts.below once nofun nofun
      | cons x xs =>
          have le : k ≤ x := List.rel_of_pairwise_cons h List.mem_cons_self
          obtain ⟨n, ms, split⟩ := exists_runs_cons x xs
          rw [runs, split]
          rw [split] at parts
          dsimp only
          by_cases same : (k == x) = true
          · rw [if_pos same]
            exact parts.copy le same
          · have lt : k < x := Scalar.lt_of_le_of_beq_eq_false le (Bool.eq_false_iff.2 same)
            rw [if_neg same]
            exact parts.below once
              (List.forall_mem_cons.2 ⟨lt, fun y hy => Scalar.lt_of_lt_of_le lt
                (List.rel_of_pairwise_cons h.of_cons hy)⟩)
              (List.forall_mem_cons.2 ⟨lt, fun m hm => Scalar.lt_of_lt_of_le lt
                (Scalar.le_of_lt (List.rel_of_pairwise_cons parts.distinct hm))⟩)

end Compared

/-- In order, each knot has one run. -/
theorem pairwise_runs {values : List K} (h : values.Pairwise (· ≤ ·)) :
    (runs values).Pairwise fun m m' => m.knot < m'.knot :=
  (runs_of_pairwise h fun _ _ => le_refl _).distinct

theorem count_flatMap_of_forall_ne {ms : List (KnotMultiplicity K)} {u : K}
    (other : ∀ m ∈ ms, m.knot ≠ u) : (ms.flatMap KnotMultiplicity.occurrences).count u = 0 := by
  refine List.count_eq_zero.2 fun member => ?_
  obtain ⟨m, hm, copy⟩ := List.mem_flatMap.1 member
  exact other m hm (List.eq_of_mem_replicate copy).symm

/-- Of distinct knots, each has the copies that its multiplicity says. -/
theorem count_flatMap_of_mem {ms : List (KnotMultiplicity K)}
    (distinct : ms.Pairwise fun m m' => m.knot ≠ m'.knot) {m : KnotMultiplicity K} (hm : m ∈ ms) :
    (ms.flatMap KnotMultiplicity.occurrences).count m.knot = m.multiplicity := by
  obtain ⟨before, after, rfl⟩ := List.append_of_mem hm
  rw [List.pairwise_append] at distinct
  have first := count_flatMap_of_forall_ne fun x hx => distinct.2.2 x hx m List.mem_cons_self
  have last := count_flatMap_of_forall_ne fun x (hx : x ∈ after) =>
    (List.rel_of_pairwise_cons distinct.2.1 hx).symm
  rw [List.flatMap_append, List.flatMap_cons, List.count_append, List.count_append, first, last,
      KnotMultiplicity.occurrences, List.count_replicate_self]
  omega

/-- A bound on the multiplicities of distinct knots bounds the copies of each. -/
theorem count_flatMap_le {ms : List (KnotMultiplicity K)} {n : Nat}
    (distinct : ms.Pairwise fun m m' => m.knot ≠ m'.knot) (le : ∀ m ∈ ms, m.multiplicity ≤ n)
    (u : K) : (ms.flatMap KnotMultiplicity.occurrences).count u ≤ n := by
  by_cases some : ∃ m ∈ ms, m.knot = u
  · obtain ⟨m, hm, rfl⟩ := some
    exact (count_flatMap_of_mem distinct hm).trans_le (le m hm)
  · rw [count_flatMap_of_forall_ne fun m hm same => some ⟨m, hm, same⟩]
    exact Nat.zero_le n

/-- In order, a run holds all copies of its knot. -/
theorem count_of_mem_runs {values : List K} (h : values.Pairwise (· ≤ ·))
    {m : KnotMultiplicity K} (hm : m ∈ runs values) : values.count m.knot = m.multiplicity :=
  (runs_of_pairwise h fun _ _ => le_refl _).counts m hm

/-! ## §2. Clamped vectors. -/

/-- Two ends around an interior. -/
theorem runs_clamped {n n' : Nat} (pos : 0 < n) (pos' : 0 < n') {a b : K} (lt : a < b)
    {mid : List K} (between : ∀ x ∈ mid, a < x ∧ x < b) :
    runs (List.replicate n a ++ mid ++ List.replicate n' b)
      = ⟨a, n⟩ :: (runs mid ++ [⟨b, n'⟩]) := by
  obtain ⟨chain, positive⟩ := runs_spec mid
  have inside : ∀ m ∈ runs mid, a < m.knot ∧ m.knot < b := fun m hm =>
    between _ (knot_mem_of_mem_runs hm)
  have whole : (⟨a, n⟩ :: (runs mid ++ [⟨b, n'⟩])).flatMap KnotMultiplicity.occurrences
      = List.replicate n a ++ mid ++ List.replicate n' b := by
    rw [List.flatMap_cons, List.flatMap_append, flatMap_runs, List.append_assoc]
    simp [KnotMultiplicity.occurrences]
  rw [← whole]
  refine runs_flatMap (List.isChain_cons.2 ⟨?_, List.isChain_append.2 ⟨chain, .singleton _, ?_⟩⟩) ?_
  · intro m hm
    rcases List.mem_append.1 (List.mem_of_mem_head? hm) with hm | hm
    · exact (inside m hm).1.ne
    · rw [List.mem_singleton.1 hm]
      exact lt.ne
  · intro m hm m' hm'
    obtain rfl : (⟨b, n'⟩ : KnotMultiplicity K) = m' := by simpa using hm'
    exact (inside m (List.mem_of_mem_getLast? hm)).2.ne
  · intro m hm
    rcases List.mem_cons.1 hm with rfl | hm
    · exact pos
    · rcases List.mem_append.1 hm with hm | hm
      · exact positive m hm
      · rw [List.mem_singleton.1 hm]
        exact pos'

/-! ## §3. Spans. -/

/-- Copies of the last boundary are none. -/
theorem boundaries_replicate (lower upper u : K) (n : Nat) (rest : List K) :
    boundaries lower upper (some u) (List.replicate n u ++ rest)
      = boundaries lower upper (some u) rest := by
  induction n with
  | zero => rfl
  | succ n ih =>
      rw [List.replicate_succ, List.cons_append, boundaries, if_neg (by simp), ih]

/-- Between its two bounds, every run gives one boundary. -/
theorem boundaries_flatMap {lower upper : K} {last : Option K}
    {ms : List (KnotMultiplicity K)} (sorted : ms.Pairwise fun m m' => m.knot < m'.knot)
    (pos : ∀ m ∈ ms, 0 < m.multiplicity)
    (within : ∀ m ∈ ms, lower ≤ m.knot ∧ m.knot ≤ upper)
    (after : ∀ b ∈ last, ∀ m ∈ ms, b < m.knot) :
    boundaries lower upper last (ms.flatMap KnotMultiplicity.occurrences)
      = ms.map KnotMultiplicity.knot := by
  induction ms generalizing last with
  | nil => rfl
  | cons m ms ih =>
      obtain ⟨low, high⟩ := within m List.mem_cons_self
      obtain ⟨n, multiplicity⟩ : ∃ n, m.multiplicity = n + 1 :=
        ⟨m.multiplicity - 1, by have := pos m List.mem_cons_self; omega⟩
      have new : (last.all fun b => decide (b < m.knot)) = true := by
        cases last with
        | none => rfl
        | some b => simpa using after b rfl m List.mem_cons_self
      rw [List.flatMap_cons, KnotMultiplicity.occurrences, multiplicity, List.replicate_succ,
          List.cons_append, boundaries, if_pos ⟨low, high, new⟩, boundaries_replicate,
          ih sorted.of_cons (fun x hx => pos x (List.mem_cons_of_mem _ hx))
            (fun x hx => within x (List.mem_cons_of_mem _ hx)), List.map_cons]
      intro b hb x hx
      obtain rfl : m.knot = b := by simpa using hb
      exact List.rel_of_pairwise_cons sorted hx

end KnotVector

namespace Spline

/-- Every distinct knot with all its copies. -/
theorem breaks_eq (U : KnotVector K) : breaks U = KnotVector.runs U.values := by
  have first : ∀ m later, KnotVector.runs U.values = m :: later → U.knot 0 = m.knot := by
    intro m later parts
    have pos := (KnotVector.runs_spec U.values).2 m (by rw [parts]; exact List.mem_cons_self)
    rw [KnotVector.knot, ← KnotVector.flatMap_runs U.values, parts, List.flatMap_cons,
        KnotMultiplicity.occurrences, List.getD_append _ _ _ _ (by simpa using pos),
        List.getD_eq_getElem _ _ (by simpa using pos), List.getElem_replicate]
  unfold breaks
  rw [KnotVector.runs_reverse, List.reverse_reverse]
  split
  · next none => exact none.symm
  · next m later parts => rw [first m later parts, ← parts]

/-- Interior breaks before a full one. -/
theorem full_append {α : Type} {p : Nat} {b : α} {ms : List (KnotMultiplicity α)}
    (pos : ∀ m ∈ ms, 0 < m.multiplicity) (le : ∀ m ∈ ms, m.multiplicity ≤ p) :
    Full p (ms ++ [⟨b, p + 1⟩]) := by
  induction ms with
  | nil => exact .last rfl
  | cons m ms ih =>
      have rest := ih (fun x hx => pos x (List.mem_cons_of_mem _ hx))
        fun x hx => le x (List.mem_cons_of_mem _ hx)
      cases ms with
      | nil => exact .inner (pos m List.mem_cons_self) (le m List.mem_cons_self) rest
      | cons m' ms => exact .inner (pos m List.mem_cons_self) (le m List.mem_cons_self) rest

end Spline

namespace Curve

/-- The knots strictly inside the domain. -/
def interior {α : Type} [Scalar α] (c : Curve α) : List α :=
  c.knots.values.filter fun k => decide (c.domain.1 < k ∧ k < c.domain.2)

theorem between_of_mem_interior {α : Type} [Scalar α] {c : Curve α} {x : α}
    (h : x ∈ c.interior) : c.domain.1 < x ∧ x < c.domain.2 :=
  of_decide_eq_true (List.mem_filter.1 h).2

/-- The knots of the domain are its two ends and the interior. -/
theorem Regular.domainKnots_eq {c : Curve K} (h : c.Regular) :
    c.knots.domainKnots c.order = c.domain.1 :: (c.interior ++ [c.domain.2]) := by
  obtain ⟨two, enough, size, degree⟩ := h.counts
  have last := h.domain_snd
  have upTo : c.knots.values.take (c.pointCount - 1)
      = c.knots.values.filter fun k => decide (k < c.domain.2) := by
    rw [← h.countBelow_finish, KnotVector.countBelow,
        ← Sequence.filter_eq_take (h.ordered.below_prefix _)]
  -- what lies before the end, without what lies up to the start
  have inside : (c.knots.values.take (c.pointCount - 1)).drop (c.order - 1) = c.interior := by
    have ordered : (⟨c.knots.values.take (c.pointCount - 1)⟩ : KnotVector K).Ordered :=
      h.ordered.sublist (List.take_sublist _ _)
    have count : (⟨c.knots.values.take (c.pointCount - 1)⟩ : KnotVector K).countUpTo c.domain.1
        = c.order - 1 := by
      rw [← degree, ← h.countUpTo_start, upTo, KnotVector.countUpTo, List.countP_filter,
          KnotVector.countUpTo]
      refine List.countP_congr fun k _ => ?_
      simp only [decide_eq_true_eq, Bool.and_eq_true]
      exact ⟨fun e => e.1, fun e => ⟨e, lt_of_le_of_lt e h.domain_lt⟩⟩
    have cut := ordered.drop_countUpTo c.domain.1
    rw [count] at cut
    rw [cut, upTo, List.filter_filter, interior]
    simp only [Bool.decide_and]
  have first : c.knots.values.drop (c.order - 2)
      = c.domain.1 :: c.knots.values.drop (c.order - 1) := by
    rw [List.drop_eq_getElem_cons (by show c.order - 2 < c.knots.size; omega),
        ← KnotVector.knot_eq_getElem, show c.order - 2 + 1 = c.order - 1 by omega]
    rfl
  have bound : c.pointCount - 1 < c.knots.values.length := by
    show _ < c.knots.size
    omega
  have final : c.knots.values.take (c.pointCount - 1 + 1)
      = c.knots.values.take (c.pointCount - 1) ++ [c.domain.2] := by
    rw [last, KnotVector.knot_eq_getElem _ bound, List.take_concat_get' _ _ bound]
  rw [show c.pointCount - 1 + 1 = c.pointCount by omega] at final
  rw [KnotVector.domainKnots, first, show c.knots.size + 2 - c.order - (c.order - 2)
        = c.pointCount - (c.order - 1) + 1 by omega, List.take_succ_cons, ← List.drop_take, final,
      List.drop_append_of_le_length (by
        rw [List.length_take]
        show _ ≤ min _ c.knots.size
        omega), inside]

/-- The spans lie between the ends and the distinct interior knots. -/
theorem Regular.spanVector_eq {c : Curve K} (h : c.Regular) :
    c.spanVector = c.domain.1 :: ((KnotVector.runs c.interior).map KnotMultiplicity.knot
      ++ [c.domain.2]) := by
  have clamped : KnotVector.runs (List.replicate 1 c.domain.1 ++ c.interior
        ++ List.replicate 1 c.domain.2)
      = ⟨c.domain.1, 1⟩ :: (KnotVector.runs c.interior ++ [⟨c.domain.2, 1⟩]) :=
    KnotVector.runs_clamped Nat.one_pos Nat.one_pos h.domain_lt fun x hx =>
      between_of_mem_interior hx
  have ordered : (c.domain.1 :: (c.interior ++ [c.domain.2])).Pairwise (· ≤ ·) := by
    rw [← h.domainKnots_eq, KnotVector.domainKnots]
    exact h.ordered.sublist ((List.take_sublist _ _).trans (List.drop_sublist _ _))
  have whole : List.replicate 1 c.domain.1 ++ c.interior ++ List.replicate 1 c.domain.2
      = c.domain.1 :: (c.interior ++ [c.domain.2]) := by simp
  rw [whole] at clamped
  have sorted := KnotVector.pairwise_runs ordered
  obtain ⟨-, pos⟩ := KnotVector.runs_spec (c.domain.1 :: (c.interior ++ [c.domain.2]))
  have within : ∀ m ∈ KnotVector.runs (c.domain.1 :: (c.interior ++ [c.domain.2])),
      c.domain.1 ≤ m.knot ∧ m.knot ≤ c.domain.2 := by
    intro m hm
    rcases List.mem_cons.1 (KnotVector.knot_mem_of_mem_runs hm) with e | hm
    · exact ⟨e.ge, e ▸ h.domain_lt.le⟩
    · rcases List.mem_append.1 hm with hm | hm
      · exact ⟨(between_of_mem_interior hm).1.le, (between_of_mem_interior hm).2.le⟩
      · obtain e := List.mem_singleton.1 hm
        exact ⟨e ▸ h.domain_lt.le, e.le⟩
  show KnotVector.boundaries c.domain.1 c.domain.2 none (c.knots.domainKnots c.order) = _
  rw [h.domainKnots_eq, ← KnotVector.flatMap_runs (c.domain.1 :: _),
      KnotVector.boundaries_flatMap sorted pos within (by simp), clamped]
  simp

/-- There is one span more than there are distinct interior knots. -/
theorem Regular.spanCount_eq {c : Curve K} (h : c.Regular) :
    c.spanCount = (KnotVector.runs c.interior).length + 1 := by
  rw [spanCount, h.spanVector_eq]
  simp

end Curve

end RationalSpline
