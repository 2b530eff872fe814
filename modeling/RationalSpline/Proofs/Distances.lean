/-
  RationalSpline.Proofs.Distances
  ───────────────────────────────
  LENGTHS OF VECTORS.

  The squares of the coordinates are added up in eight running sums; over exact numbers
  these make one sum, in whatever order.  So over real numbers the length of a vector is
  what it should be: it vanishes for the zero vector only, and a factor of the vector is
  a factor of the length.
-/
import RationalSpline.Proofs.Exact
import RationalSpline.Point

namespace RationalSpline.Point

/-! ## §1. Exact sums. -/

section Sums

variable {K : Type} [Field K] [LinearOrder K]

/-- A distance is the same in both directions. -/
theorem norm_sub_comm [Analytic K] (p q : Point K) : norm (sub p q) = norm (sub q p) := by
  have squares : (sub p q).map (fun x => x * x) = (sub q p).map fun x => x * x := by
    rw [sub, sub, List.map_zipWith, List.map_zipWith, List.zipWith_comm]
    refine congrArg (List.zipWith · q p) (funext fun x => funext fun y => ?_)
    ring
  rw [norm, norm, normSquared, normSquared, squares]

theorem foldl_add_eq (a : K) (xs : List K) : xs.foldl (· + ·) a = a + xs.sum := by
  induction xs generalizing a with
  | nil => simp
  | cons x xs ih => rw [List.foldl_cons, ih, List.sum_cons, add_assoc]

/-- Adding up in eight running sums loses nothing. -/
theorem runningSums_sum (values : List K) {sums : List K} (eight : sums.length = 8) :
    (runningSums sums values).1.length = 8
      ∧ (runningSums sums values).1.sum + (runningSums sums values).2.sum
        = sums.sum + values.sum := by
  fun_induction runningSums sums values with
  | case1 sums a b c d e f g h rest ih =>
      obtain ⟨length, sum⟩ := ih (by simp [eight])
      refine ⟨length, sum.trans ?_⟩
      match sums, eight with
      | [s₀, s₁, s₂, s₃, s₄, s₅, s₆, s₇], _ =>
          simp only [List.zipWith_cons_cons, List.zipWith_nil_left, List.sum_cons, List.sum_nil]
          ring
  | case2 sums rest => exact ⟨eight, rfl⟩

/-- The sum of numbers, in whatever order they are added. -/
theorem total_eq_sum (values : List K) : total values = values.sum := by
  obtain ⟨eight, sum⟩ :=
    runningSums_sum values (List.length_replicate : (List.replicate 8 (0 : K)).length = 8)
  rw [List.sum_replicate, smul_zero, zero_add] at sum
  rw [← sum, total]
  generalize runningSums (List.replicate 8 (0 : K)) values = r at eight
  obtain ⟨sums, rest⟩ := r
  match sums, eight with
  | [s₀, s₁, s₂, s₃, s₄, s₅, s₆, s₇], _ =>
      simp only [foldl_add_eq, List.take_succ_cons, List.take_zero, List.drop_succ_cons,
        List.drop_zero, List.zipWith_cons_cons, List.zipWith_nil_left, List.sum_cons, List.sum_nil]
      ring

/-- A location has no distance from itself. -/
theorem norm_sub_self [Analytic K] (root : Analytic.sqrt (0 : K) = 0) (p : Point K) :
    norm (sub p p) = 0 := by
  have squares : ((sub p p).map fun x => x * x) = List.replicate p.length 0 := by
    rw [sub, List.zipWith_self, List.map_map]
    exact List.map_eq_replicate_iff.2 fun x _ => by simp
  rw [norm, normSquared, squares, total_eq_sum, List.sum_replicate, smul_zero, root]

end Sums

/-! ## §2. Real lengths. -/

theorem norm_eq (p : Point ℝ) : norm p = Real.sqrt (p.map fun x => x * x).sum := by
  rw [norm, normSquared, total_eq_sum]
  rfl

theorem norm_nonneg (p : Point ℝ) : 0 ≤ norm p := by
  rw [norm_eq]
  exact Real.sqrt_nonneg _

/-- Only the zero vector has no length. -/
theorem norm_eq_zero_iff (p : Point ℝ) : norm p = 0 ↔ ∀ x ∈ p, x = 0 := by
  have squares : ∀ y ∈ p.map fun x => x * x, 0 ≤ y := by
    intro y hy
    obtain ⟨x, -, rfl⟩ := List.mem_map.1 hy
    exact mul_self_nonneg x
  rw [norm_eq, Real.sqrt_eq_zero (List.sum_nonneg squares)]
  constructor
  · intro zero x hx
    have square := List.all_zero_of_le_zero_le_of_sum_eq_zero squares zero
      (List.mem_map.2 ⟨x, hx, rfl⟩)
    exact mul_self_eq_zero.1 square
  · intro zeros
    refine List.sum_eq_zero fun y hy => ?_
    obtain ⟨x, hx, rfl⟩ := List.mem_map.1 hy
    rw [zeros x hx, mul_zero]

/-- Only equal points have no distance. -/
theorem distance_eq_zero_iff {p q : Point ℝ} (size : p.length = q.length) :
    distance p q = 0 ↔ p = q := by
  rw [distance, norm_eq_zero_iff, sub]
  constructor
  · intro zeros
    refine List.ext_getElem size fun i hp hq => ?_
    have member : q[i] - p[i] ∈ List.zipWith (· - ·) q p :=
      List.mem_iff_getElem.2 ⟨i, by simp; omega, List.getElem_zipWith⟩
    exact (sub_eq_zero.1 (zeros _ member)).symm
  · rintro rfl x hx
    rw [List.zipWith_self] at hx
    obtain ⟨y, -, rfl⟩ := List.mem_map.1 hx
    exact sub_self y

/-- A factor of a vector is a factor of its length. -/
theorem norm_scale (p : Point ℝ) (a : ℝ) : norm (scale p a) = norm p * |a| := by
  have squares : ((scale p a).map fun x => x * x).sum = (p.map fun x => x * x).sum * (a * a) := by
    rw [scale, List.map_map, ← List.sum_map_mul_right]
    refine congrArg List.sum (List.map_congr_left fun x _ => ?_)
    show x * a * (x * a) = x * x * (a * a)
    ring
  rw [norm_eq, norm_eq, squares, Real.sqrt_mul' _ (mul_self_nonneg a), Real.sqrt_mul_self_eq_abs]

end RationalSpline.Point
