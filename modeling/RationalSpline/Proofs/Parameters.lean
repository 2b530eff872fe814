/-
  RationalSpline.Proofs.Parameters
  ────────────────────────────────
  PARAMETERS IN ORDER, AND THE KNOTS BETWEEN THEM.

  The last parameter is not computed: it is 1.  Over real numbers that is what the partial
  sums would give, so every parameter is the sum of the steps before it over the sum of all
  steps, and two neighbours differ by the share of the step between them.  A step is not
  negative, and of the chordal and the centripetal style it vanishes exactly between equal
  points.

  An interior knot is the average of `degree` parameters in a row.  It lies below the
  parameter behind them and above the one before them, whatever the spread, so each
  parameter lies strictly inside the support of its own control point (the condition of
  Schoenberg and Whitney, on which the equations of the interpolation have one solution).
-/
import RationalSpline.Proofs.Distances
import RationalSpline.Proofs.Interpolation

namespace RationalSpline

/-! ## §1. Steps. -/

namespace Parameterization

variable {style : Parameterization} {points : List (Point ℝ)} {p q : Point ℝ}

theorem step_nonneg (style : Parameterization) (p q : Point ℝ) : 0 ≤ style.step p q := by
  cases style with
  | uniform => exact zero_le_one
  | chordal => exact Real.rpow_nonneg (Point.norm_nonneg _) _
  | centripetal => exact Real.rpow_nonneg (Point.norm_nonneg _) _

/-- A step of a style that measures distances vanishes exactly between equal points. -/
theorem step_eq_zero_iff (measures : style ≠ .uniform) (size : p.length = q.length) :
    style.step p q = 0 ↔ p = q := by
  have distance : ∀ {a : ℝ}, a ≠ 0 → (Point.distance p q ^ a = 0 ↔ p = q) := by
    intro a nonzero
    have nonneg : 0 ≤ Point.distance p q := Point.norm_nonneg _
    rw [Real.rpow_eq_zero_iff_of_nonneg nonneg, Point.distance_eq_zero_iff size]
    exact and_iff_left nonzero
  cases style with
  | uniform => exact absurd rfl measures
  | chordal => exact distance one_ne_zero
  | centripetal =>
      refine distance ?_
      rw [Scalar.half_eq]
      norm_num

theorem length_steps (style : Parameterization) (points : List (Point ℝ)) :
    (style.steps points).length = points.length - 1 := by
  rw [steps, List.length_map, Sequence.length_neighbours]

theorem getElem_steps {i : Nat} (h : i < (style.steps points).length) :
    (style.steps points)[i] = style.step (points.getD i []) (points.getD (i + 1) []) := by
  have inside : i + 1 < points.length := by
    rw [length_steps] at h
    omega
  rw [List.getD_eq_getElem _ _ (by omega), List.getD_eq_getElem _ _ inside]
  simp [steps, Sequence.neighbours]

theorem steps_nonneg (style : Parameterization) (points : List (Point ℝ)) :
    ∀ s ∈ style.steps points, 0 ≤ s := by
  intro s hs
  obtain ⟨⟨p, q⟩, -, rfl⟩ := List.mem_map.1 hs
  exact style.step_nonneg p q

/-- Where the steps exist, neighbours can be subtracted, unless no step measures them. -/
theorem length_eq_of_hasSteps (measures : style ≠ .uniform) (sized : style.hasSteps points = true)
    {i : Nat} (h : i + 1 < points.length) :
    (points.getD i []).length = (points.getD (i + 1) []).length := by
  have all : ((Sequence.neighbours points).all fun (p, q) => p.length == q.length) = true := by
    rcases Bool.or_eq_true_iff.1 sized with uniform | all
    · exact absurd (eq_of_beq uniform) measures
    · exact all
  have member : (points[i], points[i + 1]) ∈ Sequence.neighbours points :=
    List.mem_iff_getElem.2 ⟨i, by simp; omega, by simp [Sequence.neighbours]⟩
  rw [List.getD_eq_getElem _ _ (by omega), List.getD_eq_getElem _ _ h]
  exact eq_of_beq (List.all_eq_true.1 all _ member)

/-- The sum of the steps vanishes when the style measures distances and there is none. -/
theorem sum_steps_le_zero_iff (two : 2 ≤ points.length) (sized : style.hasSteps points = true) :
    (style.steps points).sum ≤ 0 ↔ style ≠ .uniform ∧ ∀ p ∈ points, ∀ q ∈ points, p = q := by
  have nonneg := steps_nonneg style points
  have length := length_steps style points
  constructor
  · intro le
    have zero : ∀ i (h : i < (style.steps points).length), (style.steps points)[i] = 0 :=
      fun i h => List.all_zero_of_le_zero_le_of_sum_eq_zero nonneg
        (le_antisymm le (List.sum_nonneg nonneg)) (List.getElem_mem h)
    have measures : style ≠ .uniform := by
      rintro rfl
      have first := zero 0 (by omega)
      rw [getElem_steps] at first
      exact absurd first one_ne_zero
    -- every point equals the one before it, hence the first one
    have first : ∀ i < points.length, points.getD i [] = points.getD 0 [] := by
      intro i
      induction i with
      | zero => exact fun _ => rfl
      | succ i ih =>
          intro h
          have step := zero i (by omega)
          rw [getElem_steps, step_eq_zero_iff measures (length_eq_of_hasSteps measures sized h)]
            at step
          rw [← step, ih (by omega)]
    refine ⟨measures, fun p hp q hq => ?_⟩
    obtain ⟨i, hi, rfl⟩ := List.mem_iff_getElem.1 hp
    obtain ⟨j, hj, rfl⟩ := List.mem_iff_getElem.1 hq
    rw [← List.getD_eq_getElem _ [] hi, ← List.getD_eq_getElem _ [] hj, first i hi, first j hj]
  · rintro ⟨measures, same⟩
    refine le_of_eq (List.sum_eq_zero fun s hs => ?_)
    obtain ⟨i, hi, rfl⟩ := List.mem_iff_getElem.1 hs
    have inside : i + 1 < points.length := by omega
    rw [getElem_steps, step_eq_zero_iff measures (length_eq_of_hasSteps measures sized inside)]
    rw [List.getD_eq_getElem _ _ (by omega), List.getD_eq_getElem _ _ inside]
    exact same _ (List.getElem_mem _) _ (List.getElem_mem _)

/-! ## §2. Parameters. -/

/-- A partial sum is the sum of the steps so far, over the total. -/
theorem getD_partialSums (total sum : ℝ) {steps : List ℝ} {i : Nat} (h : i < steps.length) :
    (partialSums total sum steps).getD i 0 = (sum + (steps.take (i + 1)).sum) / total := by
  induction steps generalizing sum i with
  | nil => simp at h
  | cons s rest ih =>
      cases i with
      | zero => simp [partialSums]
      | succ i =>
          rw [partialSums, List.getD_cons_succ, ih _ (by simpa using h), List.take_succ_cons,
              List.sum_cons, add_assoc]

/-- There are parameters exactly if the steps have a positive sum. -/
theorem parameters?_eq (style : Parameterization) (points : List (Point ℝ)) :
    style.parameters? points = if (style.steps points).sum ≤ 0 then none
      else some (0 :: partialSums (style.steps points).sum 0 (style.steps points).dropLast
        ++ if 1 < points.length then [1] else []) := by
  rw [parameters?, ← List.sum_eq_foldl]

/-- **Every parameter, the last one too, is the sum of the steps before it over the sum of all
steps.** -/
theorem getD_parameters {u : List ℝ} (two : 2 ≤ points.length)
    (spread : style.parameters? points = some u) {i : Nat} (hi : i < points.length) :
    u.getD i 0 = ((style.steps points).take i).sum / (style.steps points).sum := by
  have length := length_steps style points
  rw [parameters?_eq] at spread
  split at spread
  · cases spread
  · next positive =>
      have nonzero : (style.steps points).sum ≠ 0 := fun zero => positive zero.le
      obtain rfl := Option.some.inj spread
      rw [if_pos (by omega)]
      -- the first one, those between, and the last one
      cases i with
      | zero => simp
      | succ i =>
          rw [List.cons_append, List.getD_cons_succ]
          rcases Nat.lt_or_ge (i + 1) (points.length - 1) with between | last
          · have inside : i < (style.steps points).dropLast.length := by
              rw [List.length_dropLast]
              omega
            rw [List.getD_append _ _ _ _ (by simpa using inside), getD_partialSums _ _ inside,
                zero_add, List.dropLast_eq_take, List.take_take, min_eq_left (by omega)]
          · have at_ : i = (partialSums (style.steps points).sum 0
                (style.steps points).dropLast).length := by
              rw [length_partialSums, List.length_dropLast]
              omega
            rw [List.getD_append_right _ _ _ _ at_.ge, ← at_, Nat.sub_self, List.getD_cons_zero,
                List.take_of_length_le (by omega), div_self nonzero]

/-- Two neighbouring parameters differ by the share of the step between them. -/
theorem parameter_succ {u : List ℝ} (two : 2 ≤ points.length)
    (spread : style.parameters? points = some u) {i : Nat} (hi : i + 1 < points.length) :
    u.getD (i + 1) 0 = u.getD i 0
      + style.step (points.getD i []) (points.getD (i + 1) []) / (style.steps points).sum := by
  have inside : i < (style.steps points).length := by
    rw [length_steps]
    omega
  rw [getD_parameters two spread hi, getD_parameters two spread (by omega),
      List.sum_take_succ _ _ inside, getElem_steps, add_div]

/-- The parameters run from 0 to 1. -/
theorem parameter_ends {u : List ℝ} (two : 2 ≤ points.length)
    (spread : style.parameters? points = some u) :
    u.getD 0 0 = 0 ∧ u.getD (points.length - 1) 0 = 1 := by
  have length := length_steps style points
  have positive : ¬(style.steps points).sum ≤ 0 := by
    intro le
    rw [parameters?_eq, if_pos le] at spread
    cases spread
  constructor
  · rw [getD_parameters two spread (by omega), List.take_zero, List.sum_nil, zero_div]
  · rw [getD_parameters two spread (by omega), List.take_of_length_le length.le,
        div_self fun zero => positive zero.le]

/-- Numbers of a list that grow from each to the next are in order. -/
theorem pairwise_of_next {R : ℝ → ℝ → Prop} [Trans R R R] {u : List ℝ}
    (next : ∀ i, i + 1 < u.length → R (u.getD i 0) (u.getD (i + 1) 0)) : u.Pairwise R := by
  have chain : u.IsChain R := by
    refine List.isChain_iff_getElem.2 fun i hi => ?_
    have step := next i hi
    rwa [List.getD_eq_getElem _ _ (by omega), List.getD_eq_getElem _ _ hi] at step
  exact chain.pairwise

end Parameterization

/-! ## §3. Averages of parameters. -/

namespace Curve

section Averages

variable {K : Type} [Field K] [LinearOrder K]

/-- The padded knots: zeros, averages, ones. -/
theorem knot_averagedKnots {degree : Nat} {u : List K} (enough : degree + 1 ≤ u.length) {i : Nat}
    (hi : i < u.length + degree + 1) :
    (averagedKnots degree u).knot i =
      if i ≤ degree then 0
      else if i < u.length then ((u.drop (i - degree)).take degree).sum * (1 / (degree : K))
      else 1 := by
  have values : (averagedKnots degree u).values
      = List.replicate (degree + 1) 0 ++ innerKnots degree u ++ List.replicate (degree + 1) 1 := rfl
  have inner : (innerKnots degree u).length = u.length - degree - 1 := by
    rw [innerKnots, List.length_map, List.length_range]
  rw [KnotVector.knot, values]
  split_ifs with start between
  · rw [List.append_assoc, List.getD_append _ _ _ _ (by simp; omega),
        List.getD_replicate _ (by omega)]
  · rw [List.append_assoc, List.getD_append_right _ _ _ _ (by simp; omega), List.length_replicate,
        List.getD_append _ _ _ _ (by omega), List.getD_eq_getElem _ _ (by omega)]
    simp only [innerKnots, List.getElem_map, List.getElem_range, ← List.sum_eq_foldl]
    rw [show i - (degree + 1) + 1 = i - degree by omega]
  · rw [List.getD_append_right _ _ _ _ (by simp; omega), List.length_append, List.length_replicate,
        inner, List.getD_replicate _ (by omega)]

variable [IsStrictOrderedRing K]

/-- An average lies strictly between bounds of what it averages. -/
theorem average_mem_Ioo {xs : List K} {n : Nat} (length : xs.length = n) (pos : 0 < n) {a b : K}
    (above : ∀ x ∈ xs, a < x) (below : ∀ x ∈ xs, x < b) :
    a < xs.sum * (1 / (n : K)) ∧ xs.sum * (1 / (n : K)) < b := by
  have nonempty : xs ≠ [] := List.ne_nil_of_length_pos (by omega)
  have count : (0 : K) < n := Nat.cast_pos.2 pos
  have const : ∀ c : K, (xs.map fun _ => c).sum = c * n := by
    intro c
    rw [List.map_const', List.sum_replicate, length, nsmul_eq_mul, mul_comm]
  have low := List.sum_lt_sum_of_ne_nil nonempty (fun _ => a) id above
  have high := List.sum_lt_sum_of_ne_nil nonempty id (fun _ => b) below
  rw [const, List.map_id] at low
  rw [const, List.map_id] at high
  rw [mul_one_div]
  exact ⟨(lt_div_iff₀ count).2 low, (div_lt_iff₀ count).2 high⟩

omit [IsStrictOrderedRing K] in
/-- The parameters that an average is made of have their places from the index `m` on. -/
theorem exists_of_mem_window {u : List K} {m n : Nat} {x : K}
    (h : x ∈ (u.drop m).take n) : ∃ j, m ≤ j ∧ j < m + n ∧ j < u.length ∧ u.getD j 0 = x := by
  obtain ⟨r, hr, rfl⟩ := List.mem_iff_getElem.1 h
  have bound : r < n ∧ m + r < u.length := by
    rw [List.length_take, List.length_drop] at hr
    omega
  refine ⟨m + r, by omega, by omega, bound.2, ?_⟩
  rw [List.getD_eq_getElem _ _ bound.2, List.getElem_take, List.getElem_drop]

/-- **Every parameter between the first and the last lies strictly inside the support of its own
control point.** -/
theorem averagedKnots_interlace {degree : Nat} {u : List K} (pos : 1 ≤ degree)
    (enough : degree + 1 ≤ u.length) (increasing : u.Pairwise (· < ·))
    (first : u.getD 0 0 = 0) (last : u.getD (u.length - 1) 0 = 1) {i : Nat} (hi : 0 < i)
    (hi' : i + 1 < u.length) :
    (averagedKnots degree u).knot i < u.getD i 0
      ∧ u.getD i 0 < (averagedKnots degree u).knot (i + degree + 1) := by
  have lt : ∀ {j k : Nat}, j < k → k < u.length → u.getD j 0 < u.getD k 0 := by
    intro j k hjk hk
    rw [List.getD_eq_getElem _ _ (by omega), List.getD_eq_getElem _ _ hk]
    exact List.pairwise_iff_getElem.1 increasing j k _ hk hjk
  have window : ∀ {m : Nat}, m + degree ≤ u.length → ((u.drop m).take degree).length = degree := by
    intro m inside
    rw [List.length_take, List.length_drop]
    omega
  constructor
  · rw [knot_averagedKnots enough (by omega)]
    split_ifs with start between
    · exact first.symm.trans_lt (lt hi (by omega))
    · -- all parameters of the average come before
      refine (average_mem_Ioo (window (by omega)) pos (a := -1) ?_ ?_).2
      · intro x hx
        obtain ⟨j, -, -, inside, rfl⟩ := exists_of_mem_window hx
        rcases Nat.eq_zero_or_pos j with rfl | after
        · rw [first]
          exact neg_one_lt_zero
        · exact neg_one_lt_zero.trans (first.symm.trans_lt (lt after inside))
      · intro x hx
        obtain ⟨j, -, before, -, rfl⟩ := exists_of_mem_window hx
        exact lt (by omega) (by omega)
    · omega
  · rw [knot_averagedKnots enough (by omega), if_neg (by omega)]
    split_ifs with between
    · -- all parameters of the average come behind
      refine (average_mem_Ioo (window (by omega)) pos (b := 2) ?_ ?_).1
      · intro x hx
        obtain ⟨j, behind, -, inside, rfl⟩ := exists_of_mem_window hx
        exact lt (by omega) inside
      · intro x hx
        obtain ⟨j, -, -, inside, rfl⟩ := exists_of_mem_window hx
        rcases Nat.lt_or_eq_of_le (Nat.le_sub_one_of_lt inside) with before | same
        · exact ((lt before (by omega)).trans_eq last).trans one_lt_two
        · rw [same, last]
          exact one_lt_two
    · exact (lt (by omega) (by omega)).trans_eq last

end Averages

/-! ## §4. Interpolation. -/

/-- **The parameters of an interpolation are in order, and its knots lie between them.**

Of two points or more there are no parameters exactly if the style measures distances and all
points are one.  Otherwise there is one for each point; they run from 0 to 1 and do not
decrease; the uniform ones increase, and of the others two neighbours are equal exactly where
their points are.

Where parameters from 0 to 1 increase, averages of `degree` in a row for knots put every
parameter between the first and the last strictly inside the support of its control point. -/
theorem parameters_interlace_knots (style : Parameterization) {points : List (Point ℝ)}
    (two : 2 ≤ points.length) (sized : style.hasSteps points = true) :
    (style.checked points = some none
        ↔ style ≠ .uniform ∧ ∀ p ∈ points, ∀ q ∈ points, p = q)
      ∧ (¬(style ≠ .uniform ∧ ∀ p ∈ points, ∀ q ∈ points, p = q) →
        ∃ u, style.checked points = some (some u) ∧ u.length = points.length
          ∧ u.getD 0 0 = 0 ∧ u.getD (u.length - 1) 0 = 1 ∧ u.Pairwise (· ≤ ·)
          ∧ (style = .uniform → u.Pairwise (· < ·))
          ∧ (style ≠ .uniform → ∀ i, i + 1 < u.length →
            (u.getD i 0 = u.getD (i + 1) 0 ↔ points.getD i [] = points.getD (i + 1) [])))
      ∧ ∀ (u : List ℝ) (degree : Nat), 1 ≤ degree → degree + 1 ≤ u.length →
        u.Pairwise (· < ·) → u.getD 0 0 = 0 → u.getD (u.length - 1) 0 = 1 →
        ∀ i, 0 < i → i + 1 < u.length →
          (averagedKnots degree u).knot i < u.getD i 0
            ∧ u.getD i 0 < (averagedKnots degree u).knot (i + degree + 1) := by
  have none_iff := Parameterization.sum_steps_le_zero_iff two sized
  have whole : style.checked points = some (style.parameters? points) := if_pos sized
  refine ⟨?_, fun spread => ?_, fun u degree pos enough increasing first last i hi hi' =>
    averagedKnots_interlace pos enough increasing first last hi hi'⟩
  · rw [whole, Option.some_inj, Parameterization.parameters?_eq, ← none_iff]
    split
    · next le => exact iff_of_true rfl le
    · next positive => exact iff_of_false (Option.some_ne_none _) positive
  · rw [← none_iff] at spread
    have positive : 0 < (style.steps points).sum := not_le.1 spread
    obtain ⟨u, found⟩ : ∃ u, style.parameters? points = some u := by
      rw [Parameterization.parameters?_eq, if_neg spread]
      exact ⟨_, rfl⟩
    have length := Parameterization.length_parameters? found (List.ne_nil_of_length_pos (by omega))
    obtain ⟨first, last⟩ := Parameterization.parameter_ends two found
    have next := fun i (hi : i + 1 < u.length) =>
      Parameterization.parameter_succ two found (i := i) (by omega)
    have share := fun i => div_nonneg
      (style.step_nonneg (points.getD i []) (points.getD (i + 1) [])) positive.le
    refine ⟨u, whole.trans (congrArg some found), length, first, length ▸ last,
      Parameterization.pairwise_of_next fun i hi => ?_, ?_, fun measures i hi => ?_⟩
    · rw [next i hi]
      exact le_add_of_nonneg_right (share i)
    · rintro rfl
      refine Parameterization.pairwise_of_next fun i hi => ?_
      rw [next i hi]
      exact lt_add_of_pos_right _ (div_pos one_pos positive)
    · have size := Parameterization.length_eq_of_hasSteps measures sized (i := i) (by omega)
      rw [next i hi, ← Parameterization.step_eq_zero_iff measures size, left_eq_add,
          div_eq_zero_iff, or_iff_left positive.ne']

/-- Four points with a pause between them, and five parameters that increase. -/
theorem parameters_interlace_pause :
    let points : List (Point ℝ) := [[0], [1], [1], [3]]
    let even : List ℝ := [0, 1 / 4, 1 / 2, 3 / 4, 1]
    2 ≤ points.length ∧ Parameterization.chordal.hasSteps points = true
      ∧ (∃ u, Parameterization.chordal.checked points = some (some u) ∧ u.length = 4
        ∧ u.getD 0 0 = 0 ∧ u.getD 0 0 ≠ u.getD 1 0 ∧ u.getD 1 0 = u.getD 2 0
        ∧ u.getD 2 0 ≠ u.getD 3 0 ∧ u.getD 3 0 = 1)
      ∧ even.Pairwise (· < ·)
      ∧ (averagedKnots 2 even).knot 3 < 3 / 4 ∧ 1 / 4 < (averagedKnots 2 even).knot 4 := by
  intro points even
  have two : 2 ≤ points.length := by decide
  have sized : Parameterization.chordal.hasSteps points = true := rfl
  have increasing : even.Pairwise (· < ·) := by
    simp only [even, List.pairwise_cons, List.mem_cons, List.not_mem_nil]
    norm_num
  have moves : ¬(Parameterization.chordal ≠ .uniform ∧ ∀ p ∈ points, ∀ q ∈ points, p = q) := by
    rintro ⟨-, same⟩
    have first := same [0] (by simp [points]) [1] (by simp [points])
    simp at first
  obtain ⟨-, spread, knots⟩ := parameters_interlace_knots .chordal two sized
  obtain ⟨u, found, length, first, last, -, -, equal⟩ := spread moves
  have count : u.length = 4 := length
  have equal := equal (by decide)
  rw [count] at last equal
  refine ⟨two, sized, ⟨u, found, count, first, ?_, ?_, ?_, last⟩, increasing,
    (knots even 2 (by decide) (by decide) increasing rfl rfl 3 (by decide) (by decide)).1,
    (knots even 2 (by decide) (by decide) increasing rfl rfl 1 (by decide) (by decide)).2⟩
  · rw [Ne, equal 0 (by decide)]
    simp [points]
  · rw [equal 1 (by decide)]
    rfl
  · rw [Ne, equal 2 (by decide)]
    simp [points]

end Curve

end RationalSpline
