/-
  RationalSpline.Proofs.PolarDerivative
  ─────────────────────────────────────
  DERIVATIVES OF POLAR FORMS.

  A form is affine in each argument, so it has one slope there, whatever the two numbers
  it is measured between:

      slope f (s)  =  f (1, s) - f (0, s)

  The slope of a form in `p + 1` arguments is a form in `p`.  Its diagonal, taken `p + 1`
  times, is the derivative of the polynomial that the form is the polar form of.
-/
import RationalSpline.Proofs.PolarForm

open Polynomial

namespace RationalSpline.PolarForm

variable {K V : Type} [Field K]

/-! ## §1. Slopes. -/

section Slope

variable [AddCommGroup V]

/-- The slope in one argument when the others are held. -/
def slope (f : Multiset K → V) (s : Multiset K) : V := f (1 ::ₘ s) - f (0 ::ₘ s)

variable [Module K V]

/-- Affine in each of `p` arguments. -/
def Affine (p : Nat) (f : Multiset K → V) : Prop :=
  ∀ (s : Multiset K) (a x y : K), s.card + 1 = p →
    f (mix a x y ::ₘ s) = mix a (f (x ::ₘ s)) (f (y ::ₘ s))

variable {p : Nat} {f : Multiset K → V}

/-- **The slope is the same between any two numbers.** -/
theorem Affine.sub_eq (h : Affine (p + 1) f) {s : Multiset K} (card : s.card = p) (x y : K) :
    f (y ::ₘ s) - f (x ::ₘ s) = (y - x) • slope f s := by
  have unit : ∀ a : K, f (a ::ₘ s) = mix a (f (0 ::ₘ s)) (f (1 ::ₘ s)) := fun a => by
    rw [← h s a 0 1 (by omega), mix, smul_zero, zero_add, smul_eq_mul, mul_one]
  rw [unit x, unit y, slope]
  simp only [mix]
  module

/-- The slope of a form is a form in one argument less. -/
theorem Affine.slope (h : Affine (p + 1) f) : Affine p (slope f) := by
  intro s a x y card
  have swap : ∀ b : K, f (b ::ₘ mix a x y ::ₘ s)
      = mix a (f (b ::ₘ x ::ₘ s)) (f (b ::ₘ y ::ₘ s)) := fun b => by
    rw [Multiset.cons_swap, h _ a x y (by rw [Multiset.card_cons]; omega),
        Multiset.cons_swap x b, Multiset.cons_swap y b]
  rw [PolarForm.slope, PolarForm.slope, PolarForm.slope, swap, swap]
  simp only [mix]
  module

theorem Affine.iterate_slope {n k : Nat} (h : Affine (n + k) f) :
    Affine n (PolarForm.slope^[k] f) := by
  induction k generalizing f with
  | zero => exact h
  | succ k ih =>
      rw [Function.iterate_succ_apply]
      exact ih h.slope

omit [Module K V] in
/-- Slopes where arguments are held depend on the values there only. -/
theorem iterate_slope_congr {f g : Multiset K → V} {n k : Nat} {t : Multiset K}
    (same : ∀ s : Multiset K, s.card = n + k → t ≤ s → f s = g s) {s : Multiset K}
    (card : s.card = n) (held : t ≤ s) :
    (PolarForm.slope^[k] f) s = (PolarForm.slope^[k] g) s := by
  induction k generalizing f g with
  | zero => exact same s card held
  | succ k ih =>
      rw [Function.iterate_succ_apply, Function.iterate_succ_apply]
      refine ih fun u size le => ?_
      have more : ∀ a : K, f (a ::ₘ u) = g (a ::ₘ u) := fun a =>
        same _ (by rw [Multiset.card_cons]; omega) (le.trans (Multiset.le_cons_self _ _))
      rw [PolarForm.slope, PolarForm.slope, more, more]

/-- **A slope does not depend on where the parameters begin.** -/
theorem Affine.iterate_slope_translate {n k : Nat} (h : Affine (n + k) f) (a : K)
    {s : Multiset K} (card : s.card = n) :
    (PolarForm.slope^[k] fun u => f (u.map (· + a))) s
      = (PolarForm.slope^[k] f) (s.map (· + a)) := by
  induction k generalizing f with
  | zero => rfl
  | succ k ih =>
      have step : ∀ u : Multiset K, u.card = n + k → 0 ≤ u →
          PolarForm.slope (fun u => f (u.map (· + a))) u = PolarForm.slope f (u.map (· + a)) := by
        intro u size _
        have one := h.sub_eq (s := u.map (· + a)) (by simpa using size) (0 + a) (1 + a)
        rw [add_sub_add_right_eq_sub, sub_zero, one_smul] at one
        rw [← one, PolarForm.slope, Multiset.map_cons, Multiset.map_cons]
      rw [Function.iterate_succ_apply, Function.iterate_succ_apply,
          iterate_slope_congr step card (Multiset.zero_le _), ih h.slope]

/-- A coordinate of the slope is the slope of the coordinate. -/
theorem iterate_slope_coordinate {d : Nat} (f : Multiset K → Fin d → K) (k : Nat) (m : Fin d)
    (s : Multiset K) : (PolarForm.slope^[k] f) s m = (PolarForm.slope^[k] fun u => f u m) s := by
  induction k generalizing f with
  | zero => rfl
  | succ k ih =>
      rw [Function.iterate_succ_apply, Function.iterate_succ_apply, ih]
      rfl

end Slope

/-! ## §2. The polynomial of a form. -/

/-- The polynomial whose polar form is `f`. -/
noncomputable def diagonal : Nat → (Multiset K → K) → K[X]
  | 0, f => C (f 0)
  | p + 1, f =>
      (1 - X) * diagonal p (fun s => f (0 ::ₘ s)) + X * diagonal p (fun s => f (1 ::ₘ s))

theorem diagonal_sub (p : Nat) (f g : Multiset K → K) :
    diagonal p (fun s => f s - g s) = diagonal p f - diagonal p g := by
  induction p generalizing f g with
  | zero => simp [diagonal]
  | succ p ih =>
      rw [diagonal, ih, ih, diagonal, diagonal]
      ring

theorem Affine.hold {p : Nat} {f : Multiset K → K} (h : Affine (p + 1) f) (a : K) :
    Affine p (fun s => f (a ::ₘ s)) := by
  intro s b x y card
  show f (a ::ₘ mix b x y ::ₘ s) = mix b (f (a ::ₘ x ::ₘ s)) (f (a ::ₘ y ::ₘ s))
  rw [Multiset.cons_swap, h _ b x y (by rw [Multiset.card_cons]; omega), Multiset.cons_swap x a,
      Multiset.cons_swap y a]

/-- **Its values are those of the form at equal arguments.** -/
theorem Affine.eval_diagonal {p : Nat} {f : Multiset K → K} (h : Affine p f) (t : K) :
    (diagonal p f).eval t = f (Multiset.replicate p t) := by
  induction p generalizing f with
  | zero => simp [diagonal]
  | succ p ih =>
      have first : f (t ::ₘ Multiset.replicate p t)
          = mix t (f (0 ::ₘ Multiset.replicate p t)) (f (1 ::ₘ Multiset.replicate p t)) := by
        rw [← h _ t 0 1 (by simp)]
        simp [mix]
      rw [diagonal, eval_add, eval_mul, eval_mul, ih (h.hold 0), ih (h.hold 1),
          Multiset.replicate_succ, first]
      simp [mix]

/-- **The derivative is the slope, as often as there are arguments.** -/
theorem derivative_diagonal (p : Nat) (f : Multiset K → K) :
    derivative (diagonal (p + 1) f) = ((p + 1 : Nat) : K[X]) * diagonal p (slope f) := by
  have split : ∀ (p : Nat) (f : Multiset K → K), diagonal p (slope f)
      = diagonal p (fun s => f (1 ::ₘ s)) - diagonal p (fun s => f (0 ::ₘ s)) := fun p f =>
    diagonal_sub p _ _
  induction p generalizing f with
  | zero =>
      rw [split]
      simp [diagonal]
      ring
  | succ p ih =>
      -- the slope of what is left when an argument is held is that of the whole
      have swap : ∀ a : K, slope (fun s => f (a ::ₘ s)) = fun s => slope f (a ::ₘ s) := fun a => by
        funext s
        rw [slope, slope, Multiset.cons_swap, Multiset.cons_swap a 0]
      have held : diagonal (p + 1) (slope f)
          = (1 - X) * diagonal p (fun s => slope f (0 ::ₘ s))
            + X * diagonal p (fun s => slope f (1 ::ₘ s)) := rfl
      rw [diagonal, derivative_add, derivative_mul, derivative_mul, ih, ih, swap, swap]
      have rest := split (p + 1) f
      simp only [derivative_sub, derivative_one, derivative_X]
      push_cast
      linear_combination (-1 : K[X]) * rest - ((p : K[X]) + 1) * held

/-- **Higher derivatives.** -/
theorem iterate_derivative_diagonal (n k : Nat) (f : Multiset K → K) :
    derivative^[k] (diagonal (n + k) f)
      = ((n + k).descFactorial k : K[X]) * diagonal n (slope^[k] f) := by
  induction k generalizing f with
  | zero => simp
  | succ k ih =>
      rw [Function.iterate_succ_apply, ← Nat.add_assoc, derivative_diagonal,
          iterate_derivative_natCast_mul, ih, Function.iterate_succ_apply, ← mul_assoc,
          ← Nat.cast_mul, Nat.succ_descFactorial_succ]

theorem natDegree_diagonal_le (p : Nat) (f : Multiset K → K) : (diagonal p f).natDegree ≤ p := by
  induction p generalizing f with
  | zero => simp [diagonal]
  | succ p ih =>
      rw [diagonal]
      refine natDegree_add_le_of_degree_le ?_ ?_
      · refine natDegree_mul_le_of_le (m := 1) ?_ (ih _) |>.trans (by omega)
        compute_degree
      · refine natDegree_mul_le_of_le (m := 1) ?_ (ih _) |>.trans (by omega)
        compute_degree

end RationalSpline.PolarForm
