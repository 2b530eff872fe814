/-
  RationalSpline.Proofs.SpaceVectors
  ──────────────────────────────────
  VECTORS OF SPACE.

  Inner and cross product as bilinear forms, the length of a real vector, and what
  normalization makes of it.  A rotation about a unit vector keeps all inner products; that
  by the angle between two unit vectors, about their common normal, takes one to the other.
-/
import RationalSpline.Proofs.Exact
import RationalSpline.Space.Vector

namespace RationalSpline

/-- The tolerance below which a real vector counts as zero is small. -/
theorem Precision.epsilon_lt_half : (Precision.epsilon : ℝ) < 1 / 2 := by
  show (1 / 4503599627370496 : ℝ) < 1 / 2
  norm_num

namespace Vec3

/-! ## §1. Products. -/

section Products

variable {K : Type} [Field K] [LinearOrder K] (u v w : Vec3 K) (a : K)

theorem dot_comm : v.dot w = w.dot v := by
  simp only [dot]
  ring

theorem dot_add : u.dot (v.add w) = u.dot v + u.dot w := by
  simp only [dot, add]
  ring

theorem dot_sub : u.dot (v.sub w) = u.dot v - u.dot w := by
  simp only [dot, sub]
  ring

theorem dot_scale : v.dot (w.scale a) = a * v.dot w := by
  simp only [dot, scale]
  ring

theorem dot_divide : v.dot (w.divide a) = v.dot w / a := by
  simp only [dot, divide]
  ring

theorem add_dot : (v.add w).dot u = v.dot u + w.dot u := by
  rw [dot_comm, dot_add, u.dot_comm v, u.dot_comm w]

theorem scale_dot : (v.scale a).dot w = a * v.dot w := by
  rw [dot_comm, dot_scale, w.dot_comm]

/-- A cross product is orthogonal to its factors. -/
@[simp] theorem dot_cross_left : v.dot (v.cross w) = 0 := by
  simp only [dot, cross]
  ring

@[simp] theorem dot_cross_right : w.dot (v.cross w) = 0 := by
  simp only [dot, cross]
  ring

/-- The volume of three vectors changes its sign with their order. -/
theorem dot_cross_swap : v.dot (u.cross w) = -w.dot (u.cross v) := by
  simp only [dot, cross]
  ring

theorem divide_cross : (v.divide a).cross w = (v.cross w).divide a := by
  simp only [divide, cross, mk.injEq]
  exact ⟨by ring, by ring, by ring⟩

/-- **The identity of Lagrange**, for two products with one factor in common. -/
theorem cross_dot_cross : (u.cross v).dot (u.cross w) = u.dot u * v.dot w - u.dot v * u.dot w := by
  simp only [dot, cross]
  ring

/-- A product with a product. -/
theorem cross_cross : (u.cross v).cross w = (v.scale (u.dot w)).sub (u.scale (v.dot w)) := by
  simp only [dot, cross, scale, sub, mk.injEq]
  exact ⟨by ring, by ring, by ring⟩

end Products

/-! ## §2. Lengths. -/

section Norm

variable (v w : Vec3 ℝ)

theorem dot_self_nonneg : 0 ≤ v.dot v :=
  add_nonneg (add_nonneg (mul_self_nonneg _) (mul_self_nonneg _)) (mul_self_nonneg _)

theorem norm_nonneg : 0 ≤ v.norm := Real.sqrt_nonneg _

/-- The square of the length. -/
theorem norm_mul_norm : v.norm * v.norm = v.dot v := Real.mul_self_sqrt v.dot_self_nonneg

theorem norm_eq_one_iff : v.norm = 1 ↔ v.dot v = 1 := Real.sqrt_eq_one

theorem norm_third (z : ℝ) : (⟨0, 0, z⟩ : Vec3 ℝ).norm = |z| := by
  show Real.sqrt (0 * 0 + 0 * 0 + z * z) = |z|
  rw [mul_zero, zero_add, zero_add, Real.sqrt_mul_self_eq_abs]

/-- **The inequality of Cauchy and Schwarz.** -/
theorem abs_dot_le : |v.dot w| ≤ v.norm * w.norm := by
  have lagrange := v.cross_dot_cross w w
  have nonneg := (v.cross w).dot_self_nonneg
  refine abs_le_of_sq_le_sq ?_ (mul_nonneg v.norm_nonneg w.norm_nonneg)
  calc v.dot w ^ 2 = v.dot v * w.dot w - (v.cross w).dot (v.cross w) := by rw [lagrange]; ring
    _ ≤ v.dot v * w.dot w := by linarith
    _ = (v.norm * w.norm) ^ 2 := by rw [← norm_mul_norm, ← norm_mul_norm]; ring

/-- A cross product is at most as long as its factors allow. -/
theorem norm_cross_le : (v.cross w).norm ≤ v.norm * w.norm := by
  refine Real.sqrt_le_iff.2 ⟨mul_nonneg v.norm_nonneg w.norm_nonneg, ?_⟩
  calc (v.cross w).dot (v.cross w) = v.dot v * w.dot w - v.dot w * v.dot w := cross_dot_cross v w w
    _ ≤ v.dot v * w.dot w := sub_le_self _ (mul_self_nonneg _)
    _ = (v.norm * w.norm) ^ 2 := by rw [← norm_mul_norm, ← norm_mul_norm]; ring

variable {v w}

/-- The direction of a vector that is not zero is a unit vector. -/
theorem norm_normalize (pos : 0 < v.norm) : v.normalize.norm = 1 := by
  have whole : v.normalize.dot v.normalize = v.dot v / v.norm / v.norm := by
    rw [normalize, dot_divide, dot_comm, dot_divide]
  rw [norm_eq_one_iff, whole, ← norm_mul_norm, mul_div_cancel_right₀ _ pos.ne',
      div_self pos.ne']

/-- A unit vector is its own direction. -/
theorem normalize_of_norm_eq_one (unit : v.norm = 1) : v.normalize = v := by
  simp only [normalize, unit, divide, div_one]

/-- What is orthogonal to a vector is orthogonal to its direction. -/
theorem dot_normalize_eq_zero (h : v.dot w = 0) : v.dot w.normalize = 0 := by
  rw [normalize, dot_divide, h, zero_div]

/-- The cross product of orthogonal unit vectors is a unit vector. -/
theorem norm_cross_of_orthogonal (hv : v.norm = 1) (hw : w.norm = 1) (orthogonal : v.dot w = 0) :
    (v.cross w).norm = 1 := by
  rw [norm_eq_one_iff] at *
  rw [cross_dot_cross, hv, hw, orthogonal, mul_zero, sub_zero, one_mul]

/-- Unit vectors that are not parallel have a product. -/
theorem norm_cross_pos (hv : v.norm = 1) (hw : w.norm = 1) (skew : |v.dot w| < 1) :
    0 < (v.cross w).norm := by
  rw [norm_eq_one_iff] at hv hw
  have less : v.dot w * v.dot w < 1 := by
    rw [← abs_mul_abs_self]
    exact mul_lt_one_of_nonneg_of_lt_one_left (abs_nonneg _) skew skew.le
  refine Real.sqrt_pos.2 ?_
  rw [cross_dot_cross, hv, hw, mul_one]
  linarith

theorem normalize?_eq_some [Precision ℝ] {u : Vec3 ℝ} :
    v.normalize? = some u ↔ Precision.epsilon < v.norm ∧ v.normalize = u := by
  unfold normalize?
  split_ifs with short
  · simp [not_lt.2 short]
  · simp [not_le.1 short]

end Norm

/-! ## §3. Rotations. -/

section Rotation

variable {axis p q v w : Vec3 ℝ}

/-- **The formula of Rodrigues.** -/
theorem rotate_eq (axis : Vec3 ℝ) (angle : ℝ) (v : Vec3 ℝ) :
    axis.rotate angle v = ((v.scale (Real.cos angle)).add ((axis.cross v).scale
      (Real.sin angle))).add (axis.scale ((1 - Real.cos angle) * axis.dot v)) := by
  have sine : Analytic.sin angle = Real.sin angle := rfl
  have cosine : Analytic.cos angle = Real.cos angle := rfl
  unfold rotate
  rw [sine, cosine]
  split_ifs with still
  · obtain rfl : angle = 0 := eq_of_beq still
    simp [scale, add]
  · simp only [scale, add, cross, dot, mk.injEq]
    exact ⟨by ring, by ring, by ring⟩

/-- **A rotation keeps inner products.** -/
theorem rotate_dot_rotate (unit : axis.norm = 1) (angle : ℝ) (v w : Vec3 ℝ) :
    (axis.rotate angle v).dot (axis.rotate angle w) = v.dot w := by
  have one := axis.norm_eq_one_iff.1 unit
  have circle := Real.sin_sq_add_cos_sq angle
  have volume := axis.dot_cross_swap v w
  have area := axis.cross_dot_cross v w
  rw [one] at area
  rw [rotate_eq, rotate_eq]
  simp only [dot_add, add_dot, dot_scale, scale_dot, dot_cross_left, one, area,
    (axis.cross v).dot_comm axis, (axis.cross v).dot_comm w, v.dot_comm axis, volume]
  linear_combination (v.dot w - axis.dot v * axis.dot w) * circle

theorem norm_rotate (unit : axis.norm = 1) (angle : ℝ) (v : Vec3 ℝ) :
    (axis.rotate angle v).norm = v.norm :=
  congrArg Real.sqrt (rotate_dot_rotate unit angle v v)

/-- **The rotation by the angle between two unit vectors takes one to the other.** -/
theorem rotate_eq_of_angle (hp : p.norm = 1) (hq : q.norm = 1) (pos : 0 < (p.cross q).norm) :
    (p.cross q).normalize.rotate (Real.arccos (p.dot q)) p = q := by
  have one := p.norm_eq_one_iff.1 hp
  have square : (p.cross q).norm * (p.cross q).norm = 1 - p.dot q ^ 2 := by
    rw [norm_mul_norm, cross_dot_cross, one, q.norm_eq_one_iff.1 hq]
    ring
  have range := abs_le.1 ((p.abs_dot_le q).trans_eq (by rw [hp, hq, one_mul]))
  have cosine : Real.cos (Real.arccos (p.dot q)) = p.dot q := Real.cos_arccos range.1 range.2
  have sine : Real.sin (Real.arccos (p.dot q)) = (p.cross q).norm := by
    rw [Real.sin_arccos, ← square, Real.sqrt_mul_self (norm_nonneg _)]
  -- the axis is orthogonal to `p`, and its product with `p` is what `q` has across `p`
  have across : ((p.cross q).normalize.cross p).scale (p.cross q).norm
      = q.sub (p.scale (p.dot q)) := by
    rw [normalize, divide_cross, cross_cross, one, q.dot_comm]
    simp only [divide, scale, sub, mk.injEq]
    refine ⟨?_, ?_, ?_⟩ <;> field_simp
  have upright : (p.cross q).normalize.dot p = 0 := by
    rw [dot_comm]
    exact dot_normalize_eq_zero (p.dot_cross_left q)
  rw [rotate_eq, cosine, sine, across, upright]
  simp [add, sub, scale]

end Rotation

end Vec3

end RationalSpline
