/-
  RationalSpline.Proofs.PolarForm
  ───────────────────────────────
  POLAR FORMS.

  A polynomial piece of degree `p` is the diagonal of one symmetric function of
  `p` arguments that is affine in each of them: its polar form.  Symmetry is built
  into the type, since the arguments form a multiset.  What makes polar forms the
  right language for splines is that every control point is a value of the form,
  at `p` consecutive knots, and that every algorithm is affinity in one argument:

      f (v, s)  =  the combination of f (x, s) and f (y, s) that v is of x and y

  Main statements: a form is determined by its values at the stretches of knots
  around one span (`PolarForm.eq_of_stretches`), and any values there belong to a
  form (`PolarForm.ofStretches_stretch`).
-/
import RationalSpline.Proofs.Exact

namespace RationalSpline

variable {K V : Type}

/-! ## §1. Stretches of knots. -/

/-- The `n` knots `u j, u (j + 1), …`. -/
def stretch (u : Nat → K) (j : Nat) : Nat → Multiset K
  | 0 => 0
  | n + 1 => u j ::ₘ stretch u (j + 1) n

@[simp] theorem stretch_zero (u : Nat → K) (j : Nat) : stretch u j 0 = 0 := rfl

theorem stretch_succ (u : Nat → K) (j n : Nat) :
    stretch u j (n + 1) = u j ::ₘ stretch u (j + 1) n := rfl

theorem stretch_succ_right (u : Nat → K) (j n : Nat) :
    stretch u j (n + 1) = u (j + n) ::ₘ stretch u j n := by
  induction n generalizing j with
  | zero => rfl
  | succ n ih =>
      rw [stretch_succ, ih (j + 1), Multiset.cons_swap, ← stretch_succ,
          show j + 1 + n = j + (n + 1) by omega]

@[simp] theorem card_stretch (u : Nat → K) (j n : Nat) : (stretch u j n).card = n := by
  induction n generalizing j with
  | zero => rfl
  | succ n ih => rw [stretch_succ, Multiset.card_cons, ih]

theorem stretch_add (u : Nat → K) (j m n : Nat) :
    stretch u j (m + n) = stretch u j m + stretch u (j + m) n := by
  induction m generalizing j with
  | zero => simp
  | succ m ih =>
      rw [show m + 1 + n = m + n + 1 by omega, stretch_succ, ih (j + 1), stretch_succ,
          Multiset.cons_add, show j + 1 + m = j + (m + 1) by omega]

theorem stretch_congr {u v : Nat → K} {i j n : Nat} (h : ∀ r < n, u (i + r) = v (j + r)) :
    stretch u i n = stretch v j n := by
  induction n generalizing i j with
  | zero => rfl
  | succ n ih =>
      have head : u i = v j := h 0 (by omega)
      have rest : stretch u (i + 1) n = stretch v (j + 1) n := ih fun r hr => by
        have := h (r + 1) (by omega)
        rwa [show i + (r + 1) = i + 1 + r by omega,
             show j + (r + 1) = j + 1 + r by omega] at this
      rw [stretch_succ, stretch_succ, head, rest]

theorem stretch_eq_replicate {u : Nat → K} {a : K} {j n : Nat}
    (h : ∀ r < n, u (j + r) = a) : stretch u j n = Multiset.replicate n a := by
  induction n generalizing j with
  | zero => rfl
  | succ n ih =>
      have head : u j = a := h 0 (by omega)
      have rest : stretch u (j + 1) n = Multiset.replicate n a := ih fun r hr => by
        have := h (r + 1) (by omega)
        rwa [show j + (r + 1) = j + 1 + r by omega] at this
      rw [stretch_succ, head, rest, Multiset.replicate_succ]

theorem exists_of_mem_stretch {u : Nat → K} {j n : Nat} {x : K} (h : x ∈ stretch u j n) :
    ∃ r < n, u (j + r) = x := by
  induction n generalizing j with
  | zero => simp at h
  | succ n ih =>
      rcases Multiset.mem_cons.1 h with rfl | rest
      · exact ⟨0, Nat.succ_pos n, rfl⟩
      · obtain ⟨r, hr, same⟩ := ih rest
        exact ⟨r + 1, Nat.succ_lt_succ hr, by rw [← same, Nat.add_right_comm]; rfl⟩

theorem mem_stretch (u : Nat → K) (j : Nat) {n r : Nat} (h : r < n) :
    u (j + r) ∈ stretch u j n := by
  induction n generalizing j r with
  | zero => omega
  | succ n ih =>
      rw [stretch_succ, Multiset.mem_cons]
      cases r with
      | zero => exact .inl rfl
      | succ r =>
          rw [show j + (r + 1) = j + 1 + r by omega]
          exact .inr (ih (j + 1) (by omega))

theorem stretch_map {L : Type} (g : K → L) (u : Nat → K) (j n : Nat) :
    (stretch u j n).map g = stretch (fun r => g (u r)) j n := by
  induction n generalizing j with
  | zero => rfl
  | succ n ih => rw [stretch_succ, Multiset.map_cons, ih, stretch_succ]

/-- Read backwards, a stretch is the same multiset. -/
theorem stretch_reverse {u v : Nat → K} {i j n : Nat}
    (h : ∀ r < n, u (i + r) = v (j + (n - 1 - r))) : stretch u i n = stretch v j n := by
  induction n generalizing i with
  | zero => rfl
  | succ n ih =>
      have head : u i = v (j + n) := by
        have := h 0 (by omega)
        rwa [show j + (n + 1 - 1 - 0) = j + n by omega] at this
      have rest : stretch u (i + 1) n = stretch v j n := ih fun r hr => by
        have := h (r + 1) (by omega)
        rwa [show i + (r + 1) = i + 1 + r by omega,
             show j + (n + 1 - 1 - (r + 1)) = j + (n - 1 - r) by omega] at this
      rw [stretch_succ, stretch_succ_right, head, rest]

/-- The knots on the two sides of the span between the indices `p - 1` and `p` differ. -/
def Separated (u : Nat → K) (p : Nat) : Prop :=
  ∀ r < p, ∀ s, p ≤ s → s < 2 * p → u r ≠ u s

theorem Separated.shift {u : Nat → K} {p : Nat} (h : Separated u (p + 1)) :
    Separated (fun r => u (r + 1)) p := by
  intro r hr s hs hs'
  exact h (r + 1) (by omega) (s + 1) (by omega) (by omega)

/-- The knots at the ends of a stretch differ. -/
theorem Separated.ne_ends {u : Nat → K} {p j : Nat} (h : Separated u (p + 1)) (hj : j ≤ p) :
    u (j + 1 + p) ≠ u j :=
  (h j (by omega) (j + 1 + p) (by omega) (by omega)).symm

theorem stretch_shift (u : Nat → K) (j n : Nat) :
    stretch (fun r => u (r + 1)) j n = stretch u (j + 1) n :=
  stretch_congr fun r _ => by rw [show j + 1 + r = j + r + 1 by omega]

variable [Field K] [AddCommGroup V] [Module K V]

/-! ## §2. Affine combinations. -/

/-- The affine combination `(1 - a) • v + a • w`. -/
def mix (a : K) (v w : V) : V := (1 - a) • v + a • w

@[simp] theorem mix_zero (v w : V) : mix (0 : K) v w = v := by simp [mix]

@[simp] theorem mix_one (v w : V) : mix (1 : K) v w = w := by simp [mix]

/-- Position is affine in the point that is located. -/
theorem mix_position (a x y lo d : K) (v w : V) :
    mix ((mix a x y - lo) / d) v w
      = mix a (mix ((x - lo) / d) v w) (mix ((y - lo) / d) v w) := by
  have position : (mix a x y - lo) / d = (1 - a) * ((x - lo) / d) + a * ((y - lo) / d) := by
    simp only [mix, smul_eq_mul]
    ring
  rw [position]
  simp only [mix]
  module

theorem mix_mix (a b : K) (v₁ v₂ w₁ w₂ : V) :
    mix b (mix a v₁ v₂) (mix a w₁ w₂) = mix a (mix b v₁ w₁) (mix b v₂ w₂) := by
  simp only [mix]
  module

/-! ## §3. Polar forms. -/

/-- A symmetric function of `p` arguments that is affine in each. -/
structure PolarForm (K V : Type) [Field K] [AddCommGroup V] [Module K V] (p : Nat) where
  /-- The value at arguments. -/
  toFun : Multiset K → V
  /-- Affine in one argument when the others are held. -/
  affine : ∀ (s : Multiset K) (a x y : K), s.card + 1 = p →
    toFun (mix a x y ::ₘ s) = mix a (toFun (x ::ₘ s)) (toFun (y ::ₘ s))

namespace PolarForm

variable {p q : Nat}

instance : CoeFun (PolarForm K V p) (fun _ => Multiset K → V) := ⟨PolarForm.toFun⟩

/-- The value at `v` from the values at two other numbers. -/
theorem between (f : PolarForm K V p) {s : Multiset K} (hs : s.card + 1 = p) {x y : K}
    (hxy : y ≠ x) (v : K) :
    f (v ::ₘ s) = mix ((v - x) / (y - x)) (f (x ::ₘ s)) (f (y ::ₘ s)) := by
  have hd : y - x ≠ 0 := sub_ne_zero.2 hxy
  have hv : mix ((v - x) / (y - x)) x y = v := by
    simp only [mix, smul_eq_mul]
    field_simp
    ring
  rw [← f.affine s _ x y hs, hv]

/-- Some arguments held. -/
def hold (f : PolarForm K V q) (t : Multiset K) (h : p + t.card = q) : PolarForm K V p where
  toFun s := f (t + s)
  affine s a x y hs := by
    have card : (t + s).card + 1 = q := by
      rw [Multiset.card_add]
      omega
    rw [Multiset.add_cons, Multiset.add_cons, Multiset.add_cons, f.affine _ _ _ _ card]

@[simp] theorem hold_apply (f : PolarForm K V q) (t : Multiset K) (h : p + t.card = q)
    (s : Multiset K) : f.hold t h s = f (t + s) := rfl

/-- The same value everywhere. -/
def const (v : V) : PolarForm K V p where
  toFun _ := v
  affine _ a _ _ _ := by
    simp only [mix]
    module

/-- One coordinate of a form. -/
def coordinate {d : Nat} (f : PolarForm K (Fin d → K) p) (i : Fin d) : PolarForm K K p where
  toFun s := f s i
  affine s a x y hs := by
    rw [f.affine s a x y hs]
    rfl

/-- **A form is determined by its values at the stretches around one span.** -/
theorem eq_of_stretches {u : Nat → K} (f g : PolarForm K V p) (hu : Separated u p)
    (h : ∀ j ≤ p, f (stretch u j p) = g (stretch u j p)) {s : Multiset K} (hs : s.card = p) :
    f s = g s := by
  induction p generalizing u s with
  | zero =>
      obtain rfl : s = 0 := Multiset.card_eq_zero.1 hs
      exact h 0 (le_refl 0)
  | succ p ih =>
      obtain ⟨x, hx⟩ : ∃ x, x ∈ s := Multiset.card_pos_iff_exists_mem.1 (by omega)
      obtain ⟨s, rfl⟩ := Multiset.exists_cons_of_mem hx
      have hs' : s.card = p := by simpa using hs
      -- with `x` held, the stretches of one knot less determine the form
      have one : p + ({x} : Multiset K).card = p + 1 := by simp
      have held : (f.hold {x} one) s = (g.hold {x} one) s := by
        refine ih (f.hold {x} one) (g.hold {x} one) hu.shift ?_ hs'
        intro j hj
        have ends := hu.ne_ends hj
        have card : (stretch u (j + 1) p).card + 1 = p + 1 := by simp
        show f ({x} + stretch (fun r => u (r + 1)) j p)
          = g ({x} + stretch (fun r => u (r + 1)) j p)
        rw [stretch_shift, Multiset.singleton_add, f.between card ends, g.between card ends,
            ← stretch_succ, ← stretch_succ_right, h j (by omega), h (j + 1) (by omega)]
      rwa [hold_apply, hold_apply, Multiset.singleton_add] at held

/-- **Forms that agree at the stretches around a run of knots agree where the run is held.** -/
theorem eq_of_held {f g : PolarForm K V p} {u : Nat → K} {a m : Nat} (hq : q + m = p)
    (apart : ∀ r < q, ∀ r' < q, u (a + r) ≠ u (a + q + m + r'))
    (same : ∀ j ≤ q, f (stretch u (a + j) p) = g (stretch u (a + j) p)) {s : Multiset K}
    (card : s.card = p) (held : stretch u (a + q) m ≤ s) : f s = g s := by
  obtain ⟨rest, rfl⟩ := Multiset.le_iff_exists_add.1 held
  rw [Multiset.card_add, card_stretch] at card
  have run : q + (stretch u (a + q) m).card = p := by
    rw [card_stretch, hq]
  -- the knots around the run, without those of the run
  obtain ⟨v, hv⟩ : ∃ v : Nat → K, v = fun r =>
    if r < q then u (a + r) else u (a + q + m + (r - q)) := ⟨_, rfl⟩
  have separated : Separated v q := by
    intro r hr r' hr' hr''
    rw [hv]
    simp only [hr, if_true, not_lt.2 hr', if_false]
    exact apart r hr (r' - q) (by omega)
  have whole : ∀ j ≤ q, stretch u (a + q) m + stretch v j q = stretch u (a + j) p := by
    intro j hj
    have first : stretch v j (q - j) = stretch u (a + j) (q - j) :=
      stretch_congr fun r hr => by
        rw [hv]
        simp only [show j + r < q by omega, if_true]
        exact congrArg _ (by omega)
    have last : stretch v q j = stretch u (a + q + m) j :=
      stretch_congr fun r hr => by
        rw [hv]
        simp only [show ¬q + r < q by omega, if_false]
        exact congrArg _ (by omega)
    have cut : stretch v j q = stretch v j (q - j) + stretch v q j := by
      rw [show q = q - j + j by omega, stretch_add, show q - j + j - j = q - j by omega,
          show j + (q - j) = q - j + j by omega]
    have cut' : stretch u (a + j) p
        = stretch u (a + j) (q - j) + stretch u (a + q) m + stretch u (a + q + m) j := by
      rw [show p = q - j + m + j by omega, stretch_add, stretch_add,
          show a + j + (q - j) = a + q by omega,
          show a + j + (q - j + m) = a + q + m by omega]
    rw [cut, first, last, cut']
    abel
  have agree := eq_of_stretches (f.hold _ run) (g.hold _ run) separated
    (fun j hj => by
      rw [hold_apply, hold_apply, whole j hj]
      exact same j hj) (show rest.card = q by omega)
  rwa [hold_apply, hold_apply] at agree

/-! ## §4. The form with given values at the stretches of a span. -/

/-- Rounds of affine combinations, one for each argument. -/
def descend (u : Nat → K) (P : Nat → V) : List K → V
  | [] => P 0
  | x :: xs =>
      descend (fun r => u (r + 1))
        (fun r => mix ((x - u r) / (u (r + xs.length + 1) - u r)) (P r) (P (r + 1))) xs

theorem descend_congr {u : Nat → K} {P Q : Nat → V} {xs : List K}
    (h : ∀ r ≤ xs.length, P r = Q r) : descend u P xs = descend u Q xs := by
  induction xs generalizing u P Q with
  | nil => exact h 0 (le_refl 0)
  | cons x xs ih =>
      refine ih fun r hr => ?_
      rw [h r (by simp only [List.length_cons]; omega),
          h (r + 1) (by simp only [List.length_cons]; omega)]

theorem descend_mix (a : K) (u : Nat → K) (P Q : Nat → V) (xs : List K) :
    descend u (fun r => mix a (P r) (Q r)) xs = mix a (descend u P xs) (descend u Q xs) := by
  induction xs generalizing u P Q with
  | nil => rfl
  | cons x xs ih =>
      simp only [descend]
      rw [← ih]
      refine descend_congr fun r _ => ?_
      exact mix_mix _ _ _ _ _ _

theorem descend_affine (u : Nat → K) (P : Nat → V) (a x y : K) (xs : List K) :
    descend u P (mix a x y :: xs)
      = mix a (descend u P (x :: xs)) (descend u P (y :: xs)) := by
  simp only [descend]
  rw [← descend_mix]
  exact descend_congr fun r _ => mix_position _ _ _ _ _ _ _

/-- Two rounds may change places. -/
theorem descend_swap {u : Nat → K} (P : Nat → V) (x y : K) (xs : List K)
    (hu : Separated u (xs.length + 2)) :
    descend u P (y :: x :: xs) = descend u P (x :: y :: xs) := by
  simp only [descend, List.length_cons]
  refine descend_congr fun r hr => ?_
  have outer₀ : u (r + (xs.length + 1) + 1) - u r ≠ 0 := sub_ne_zero.2 fun e =>
    hu r (by omega) (r + (xs.length + 1) + 1) (by omega) (by omega) e.symm
  have outer₁ : u (r + 1 + (xs.length + 1) + 1) - u (r + 1) ≠ 0 := sub_ne_zero.2 fun e =>
    hu (r + 1) (by omega) (r + 1 + (xs.length + 1) + 1) (by omega) (by omega) e.symm
  have middle : u (r + xs.length + 1 + 1) - u (r + 1) ≠ 0 := sub_ne_zero.2 fun e =>
    hu (r + 1) (by omega) (r + xs.length + 1 + 1) (by omega) (by omega) e.symm
  rw [show r + (xs.length + 1) + 1 = r + xs.length + 1 + 1 by omega] at *
  rw [show r + 1 + (xs.length + 1) + 1 = r + xs.length + 3 by omega] at *
  generalize u (r + xs.length + 1 + 1) = b₀ at *
  generalize u (r + xs.length + 3) = b₁ at *
  generalize u (r + 1) = a₁ at *
  generalize u r = a₀ at *
  simp only [mix]
  match_scalars <;> field_simp <;> ring

theorem descend_perm {xs ys : List K} (h : xs.Perm ys) {u : Nat → K} (P : Nat → V)
    (hu : Separated u xs.length) : descend u P xs = descend u P ys := by
  induction h generalizing u P with
  | nil => rfl
  | cons x h ih =>
      simp only [descend, h.length_eq]
      exact ih _ (by simpa using hu.shift)
  | swap x y xs => exact descend_swap P x y xs hu
  | trans h _ ih₁ ih₂ => rw [ih₁ P hu, ih₂ P (h.length_eq ▸ hu)]

theorem descend_stretch {u : Nat → K} (P : Nat → V) {xs : List K} {j : Nat}
    (hu : Separated u xs.length) (hj : j ≤ xs.length)
    (hxs : (xs : Multiset K) = stretch u j xs.length) : descend u P xs = P j := by
  generalize hp : xs.length = p at *
  induction p generalizing u P j xs with
  | zero =>
      obtain rfl : xs = [] := List.length_eq_zero_iff.1 hp
      obtain rfl : j = 0 := by omega
      rfl
  | succ p ih =>
      -- take the argument at the end of the stretch that the index allows
      obtain ⟨x, tail, htail, hmix⟩ : ∃ (x : K) (i : Nat),
          stretch u j (p + 1) = x ::ₘ stretch (fun r => u (r + 1)) i p ∧ i ≤ p ∧
            mix ((x - u i) / (u (i + p + 1) - u i)) (P i) (P (i + 1)) = P j := by
        cases j with
        | zero => exact ⟨u 0, 0, by rw [stretch_shift, stretch_succ], by omega, by simp⟩
        | succ j =>
            have ends := hu.ne_ends (j := j) (by omega)
            refine ⟨u (j + 1 + p), j, by rw [stretch_shift, stretch_succ_right], by omega, ?_⟩
            rw [show j + p + 1 = j + 1 + p by omega, div_self (sub_ne_zero.2 ends), mix_one]
      have perm : xs.Perm (x :: (stretch (fun r => u (r + 1)) tail p).toList) := by
        rw [← Multiset.coe_eq_coe, hxs, htail, ← Multiset.cons_coe, Multiset.coe_toList]
      have size : (stretch (fun r => u (r + 1)) tail p).toList.length = p := by simp
      rw [descend_perm perm P (hp ▸ hu)]
      simp only [descend, size]
      rw [ih _ size hu.shift hmix.1 (by simp), hmix.2]

/-- The form that takes the value `P j` at the stretch of `p` knots from `u j` on. -/
noncomputable def ofStretches (u : Nat → K) (P : Nat → V) (hu : Separated u p) :
    PolarForm K V p where
  toFun s := descend u P s.toList
  affine s a x y hs := by
    have sorted : ∀ z, descend u P (z ::ₘ s).toList = descend u P (z :: s.toList) := fun z =>
      descend_perm (by rw [← Multiset.coe_eq_coe, ← Multiset.cons_coe]; simp) P
        (by simpa [hs] using hu)
    rw [sorted, sorted, sorted, descend_affine]

/-- **Any values at the stretches of a span are those of a form.** -/
theorem ofStretches_stretch {u : Nat → K} (P : Nat → V) (hu : Separated u p) {j : Nat}
    (hj : j ≤ p) : ofStretches u P hu (stretch u j p) = P j :=
  descend_stretch P (by simpa using hu) (by simpa using hj) (by simp)

end PolarForm

end RationalSpline
