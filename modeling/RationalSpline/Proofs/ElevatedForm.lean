/-
  RationalSpline.Proofs.ElevatedForm
  ──────────────────────────────────
  POLAR FORMS IN A HIGHER DEGREE.

  In the degree `p + inc` a polynomial of degree `p` has the polar form

      g (s)  =  the mean of f (u) over all choices u of p arguments out of s

  since the mean is symmetric, affine in each argument, and the same on the diagonal.
  At two distinct arguments it is a combination of the values of `f` there, with the
  products of binomial coefficients that `Spline.share` computes from its table.
-/
import RationalSpline.Proofs.BinomialTable
import RationalSpline.Proofs.Coordinates

namespace RationalSpline

variable {K V : Type}

/-! ## §1. Means over choices of arguments. -/

namespace PolarForm

variable [AddCommGroup V] {p : Nat}

/-- The sum of the values at all choices of `p` arguments. -/
def choices (f : Multiset K → V) (p : Nat) (s : Multiset K) : V :=
  ((s.powersetCard p).map f).sum

theorem choices_zero (f : Multiset K → V) (s : Multiset K) : choices f 0 s = f 0 := by
  simp [choices]

/-- A further argument is either left out or held. -/
theorem choices_cons (f : Multiset K → V) (p : Nat) (x : K) (s : Multiset K) :
    choices f (p + 1) (x ::ₘ s) = choices f (p + 1) s + choices (fun u => f (x ::ₘ u)) p s := by
  simp only [choices, Multiset.powersetCard_cons, Multiset.map_add, Multiset.sum_add,
    Multiset.map_map, Function.comp_def]

theorem choices_congr {f g : Multiset K → V} {p : Nat} {s : Multiset K}
    (h : ∀ u ≤ s, u.card = p → f u = g u) : choices f p s = choices g p s := by
  refine congrArg _ (Multiset.map_congr rfl fun u hu => ?_)
  obtain ⟨le, card⟩ := Multiset.mem_powersetCard.1 hu
  exact h u le card

variable [Field K] [Module K V]

theorem choices_mix (f g : Multiset K → V) (p : Nat) (s : Multiset K) (a : K) :
    choices (fun u => mix a (f u) (g u)) p s = mix a (choices f p s) (choices g p s) := by
  simp only [choices, mix, Multiset.sum_map_add, Multiset.smul_sum, Multiset.map_map,
    Function.comp_def]

/-- All choices from equal arguments are equal. -/
theorem choices_replicate (f : Multiset K → V) (p n : Nat) (t : K) :
    choices f p (Multiset.replicate n t)
      = (n.choose p : K) • f (Multiset.replicate p t) := by
  have same : choices f p (Multiset.replicate n t)
      = choices (fun _ => f (Multiset.replicate p t)) p (Multiset.replicate n t) := by
    refine choices_congr fun u le card => ?_
    rw [Multiset.eq_replicate_card.2 fun x hx =>
      Multiset.eq_of_mem_replicate (Multiset.mem_of_le le hx), card]
  rw [same, choices, Multiset.map_const', Multiset.sum_replicate, Multiset.card_powersetCard,
      Multiset.card_replicate, Nat.cast_smul_eq_nsmul]

/-- The choices from two arguments, by how often the second is taken. -/
theorem choices_two (f : Multiset K → V) (p m n : Nat) (x y : K) :
    choices f p (Multiset.replicate m x + Multiset.replicate n y)
      = ∑ j ∈ Finset.range (p + 1), ((m.choose (p - j) * n.choose j : Nat) : K)
          • f (Multiset.replicate (p - j) x + Multiset.replicate j y) := by
  induction n generalizing p f with
  | zero =>
      rw [Finset.sum_eq_single 0]
      · simp [choices_replicate]
      · intro j _ hj
        rw [Nat.choose_eq_zero_of_lt (Nat.pos_of_ne_zero hj)]
        simp
      · simp
  | succ n ih =>
      cases p with
      | zero => simp [choices_zero]
      | succ p =>
          rw [Multiset.replicate_succ, Multiset.add_cons, choices_cons, ih, ih,
              Finset.sum_range_succ' _ (p + 1), Finset.sum_range_succ' _ (p + 1),
              add_right_comm, ← Finset.sum_add_distrib]
          congr 1
          · refine Finset.sum_congr rfl fun j hj => ?_
            have hj' : j ≤ p := by
              have := Finset.mem_range.1 hj
              omega
            rw [Nat.add_sub_add_right, Nat.choose_succ_succ n j, Multiset.replicate_succ y j,
                Multiset.add_cons, ← add_smul, ← Nat.cast_add, ← Nat.mul_add,
                Nat.add_comm (n.choose (j + 1))]
          · simp

/-! ## §2. The elevated form. -/

/-- The form in `inc` degrees more: the mean over all choices of `p` arguments. -/
def elevate (f : PolarForm K V p) (inc : Nat) : PolarForm K V (p + inc) where
  toFun s := ((p + inc).choose p : K)⁻¹ • choices f p s
  affine s a x y _ := by
    have sums : choices f p (mix a x y ::ₘ s)
        = mix a (choices f p (x ::ₘ s)) (choices f p (y ::ₘ s)) := by
      cases p with
      | zero =>
          simp only [choices_zero, mix]
          module
      | succ p =>
          have inner : choices (fun u => f (mix a x y ::ₘ u)) p s
              = choices (fun u => mix a (f (x ::ₘ u)) (f (y ::ₘ u))) p s :=
            choices_congr fun u _ card => f.affine u a x y (by rw [card])
          rw [choices_cons, choices_cons, choices_cons, inner, choices_mix]
          simp only [mix]
          module
    rw [sums]
    simp only [mix]
    module

theorem elevate_apply (f : PolarForm K V p) (inc : Nat) (s : Multiset K) :
    f.elevate inc s = ((p + inc).choose p : K)⁻¹ • choices f p s := rfl

/-- Forms that agree on all choices agree in the higher degree. -/
theorem elevate_congr {f g : PolarForm K V p} {inc : Nat} {s : Multiset K}
    (h : ∀ u ≤ s, u.card = p → f u = g u) : f.elevate inc s = g.elevate inc s := by
  rw [elevate_apply, elevate_apply, choices_congr h]

variable [CharZero K]

theorem choose_ne_zero (p inc : Nat) : ((p + inc).choose p : K) ≠ 0 :=
  Nat.cast_ne_zero.2 (Nat.choose_pos (Nat.le_add_right p inc)).ne'

/-- **Elevation keeps the polynomial.** -/
theorem elevate_diagonal (f : PolarForm K V p) (inc : Nat) (t : K) :
    f.elevate inc (Multiset.replicate (p + inc) t) = f (Multiset.replicate p t) := by
  rw [elevate_apply, choices_replicate, smul_smul, inv_mul_cancel₀ (choose_ne_zero p inc),
      one_smul]

end PolarForm

/-! ## §3. Bézier polygons. -/

namespace Spline

/-- Two ways to choose from `j + q + k + l` things. -/
theorem choose_mul_choose_mul_choose (j q k l : Nat) :
    (j + q + k + l).choose (j + k) * ((q + l).choose q * (j + k).choose j)
      = (j + q + k + l).choose (j + q) * ((j + q).choose j * (k + l).choose k) := by
  have left := Nat.choose_mul (n := j + q + k + l) (k := j + k) (s := j) (by omega)
  have right := Nat.choose_mul (n := j + q + k + l) (k := j + q) (s := j) (by omega)
  have first := Nat.choose_mul (n := q + k + l) (k := q + k) (s := k) (by omega)
  have second := Nat.choose_mul (n := q + k + l) (k := q + k) (s := q) (by omega)
  rw [show j + q + k + l - j = q + k + l by omega, Nat.add_sub_cancel_left] at left right
  rw [show q + k + l - k = q + l by omega, Nat.add_sub_cancel] at first
  rw [show q + k + l - q = k + l by omega, Nat.add_sub_cancel_left] at second
  have symm : (q + k).choose k = (q + k).choose q := by
    rw [Nat.add_comm q k, Nat.choose_symm_add]
  rw [symm] at first
  calc (j + q + k + l).choose (j + k) * ((q + l).choose q * (j + k).choose j)
      = (j + q + k + l).choose (j + k) * (j + k).choose j * (q + l).choose q := by ring
    _ = (j + q + k + l).choose j * ((q + k + l).choose k * (q + l).choose q) := by
        rw [left]
        ring
    _ = (j + q + k + l).choose j * ((q + k + l).choose q * (k + l).choose k) := by
        rw [← first, second]
    _ = (j + q + k + l).choose (j + q) * (j + q).choose j * (k + l).choose k := by
        rw [right]
        ring
    _ = (j + q + k + l).choose (j + q) * ((j + q).choose j * (k + l).choose k) := by ring

variable [Field K] [LinearOrder K]

theorem shareBelow_eq (p inc i j : Nat) :
    (shareBelow p inc i j : K)
      = ((p.choose j * inc.choose (i - j) : Nat) : K) / ((p + inc).choose i : K) := by
  simp only [shareBelow, binomial_eq]
  push_cast
  ring

/-- Seen from either end, the share is the same. -/
theorem share_eq {p inc i j : Nat} (hj : j ≤ p) (hji : j ≤ i) (hij : i ≤ j + inc) :
    (share p inc i j : K)
      = ((p.choose j * inc.choose (i - j) : Nat) : K) / ((p + inc).choose i : K) := by
  unfold share
  split
  · exact shareBelow_eq p inc i j
  · rw [shareBelow_eq, show p + inc - i - (p - j) = inc - (i - j) by omega,
        Nat.choose_symm hj, Nat.choose_symm (by omega), Nat.choose_symm (by omega)]

variable [CharZero K] {d p : Nat}

/-- The shares are the coefficients of the mean over choices. -/
theorem share_eq_choices {p inc i j : Nat} (hj : j ≤ p) (hji : j ≤ i) (hij : i ≤ j + inc) :
    (share p inc i j : K)
      = ((p + inc).choose p : K)⁻¹
        * (((p + inc - i).choose (p - j) * i.choose j : Nat) : K) := by
  obtain ⟨q, rfl⟩ : ∃ q, p = j + q := ⟨p - j, by omega⟩
  obtain ⟨k, rfl⟩ : ∃ k, i = j + k := ⟨i - j, by omega⟩
  obtain ⟨l, rfl⟩ : ∃ l, inc = k + l := ⟨inc - k, by omega⟩
  have positive : ((j + q + (k + l)).choose (j + k) : K) ≠ 0 :=
    Nat.cast_ne_zero.2 (Nat.choose_pos (by omega)).ne'
  have positive' : ((j + q + (k + l)).choose (j + q) : K) ≠ 0 :=
    Nat.cast_ne_zero.2 (Nat.choose_pos (by omega)).ne'
  have counted := congrArg (Nat.cast (R := K)) (choose_mul_choose_mul_choose j q k l)
  rw [show j + q + k + l = j + q + (k + l) by omega] at counted
  rw [share_eq hj hji hij, Nat.add_sub_cancel_left, Nat.add_sub_cancel_left,
      show j + q + (k + l) - (j + k) = q + l by omega, div_eq_iff positive, mul_assoc,
      eq_inv_mul_iff_mul_eq₀ positive']
  push_cast at counted ⊢
  linear_combination -counted

/-- **A higher form at copies of two numbers is the sum of its shares.** -/
theorem elevate_two (f : PolarForm K (Fin d → K) p) (a b : K) {inc i : Nat} (hi : i ≤ p + inc) :
    f.elevate inc (Multiset.replicate (p + inc - i) a + Multiset.replicate i b)
      = ∑ j ∈ Finset.Ico (i - inc) (min p i + 1), (share p inc i j : K)
          • f (Multiset.replicate (p - j) a + Multiset.replicate j b) := by
  rw [PolarForm.elevate_apply, PolarForm.choices_two, Finset.smul_sum]
  symm
  -- the choices that no share reaches vanish
  refine Finset.sum_subset_zero_on_sdiff (fun j hj => ?_) (fun j hj => ?_) (fun j hj => ?_)
  · have := Finset.mem_Ico.1 hj
    exact Finset.mem_range.2 (by omega)
  · obtain ⟨range, out⟩ := Finset.mem_sdiff.1 hj
    rw [Finset.mem_range] at range
    rw [Finset.mem_Ico] at out
    have none : (p + inc - i).choose (p - j) * i.choose j = 0 := by
      by_cases low : j < i - inc
      · rw [Nat.choose_eq_zero_of_lt (by omega), Nat.zero_mul]
      · rw [Nat.choose_eq_zero_of_lt (show i < j by omega), Nat.mul_zero]
    rw [none, Nat.cast_zero, zero_smul, smul_zero]
  · have := Finset.mem_Ico.1 hj
    rw [smul_smul, share_eq_choices (by omega) (by omega) (by omega)]

/-- The Bézier points of a piece, in its degree and in a higher one. -/
theorem getD_raisePolygon {f : PolarForm K (Fin d → K) p} {a b : K} {polygon : List (Point K)}
    (length : polygon.length = p + 1)
    (h : ∀ j ≤ p, polygon.getD j []
      = Point.ofVec (f (Multiset.replicate (p - j) a + Multiset.replicate j b)))
    {inc i : Nat} (hi : i ≤ p + inc) :
    (raisePolygon d (shareRows p inc) polygon).getD i []
      = Point.ofVec (f.elevate inc
          (Multiset.replicate (p + inc - i) a + Multiset.replicate i b)) := by
  have row : (raisePolygon d (shareRows p inc) polygon).getD i []
      = Point.combine d
          ((List.range' (i - inc) (min p i + 1 - (i - inc))).map (share p inc i))
          (polygon.drop (i - inc)) := by
    rw [List.getD_eq_getElem _ _ (by simp; omega)]
    simp [raisePolygon, shareRows]
  have points : polygon.drop (i - inc)
      = ((List.range' (i - inc) (p + 1 - (i - inc))).map fun j =>
          f (Multiset.replicate (p - j) a + Multiset.replicate j b)).map Point.ofVec := by
    refine List.ext_getElem (by simp [length]) fun r h₁ h₂ => ?_
    have := h (i - inc + r) (by simp at h₂; omega)
    rw [List.getD_eq_getElem _ _ (by simp at h₁; omega)] at this
    simpa using this
  have terms : List.zipWith (fun (b : K) (v : Fin d → K) => b • v)
      ((List.range' (i - inc) (min p i + 1 - (i - inc))).map (share p inc i))
      ((List.range' (i - inc) (p + 1 - (i - inc))).map fun j =>
        f (Multiset.replicate (p - j) a + Multiset.replicate j b))
      = (List.range (min p i + 1 - (i - inc))).map fun r =>
          (share p inc i (i - inc + r) : K)
            • f (Multiset.replicate (p - (i - inc + r)) a
                + Multiset.replicate (i - inc + r) b) := by
    refine List.ext_getElem (by simp; omega) fun r h₁ h₂ => ?_
    simp
  rw [row, points, Point.combine_ofVec, terms, elevate_two f a b hi,
      Finset.sum_Ico_eq_sum_range]
  rfl

end Spline

end RationalSpline
