/-
  RationalSpline.Proofs.LinearSystem
  ──────────────────────────────────
  WHAT ELIMINATION FINDS.

  An equation is held by points when the combination of the points with its coefficients
  is its value.  Each step of the elimination keeps this in one direction: points that
  hold the pivot equation and the rest without its first unknown hold all equations
  before.  So does the substitution, from the last equation upwards, and what it finds
  solves the system (`isSolver_solve?`).

  `IsSolver` is all that interpolation asks of the way its system is solved.
-/
import RationalSpline.Proofs.Coordinates
import RationalSpline.Interpolation.LinearSystem

namespace RationalSpline.Equation

/-! ## §1. Solutions. -/

/-- A system of `n` equations for `n` points with `d` coordinates. -/
structure Square {α : Type} (n d : Nat) (system : List (Equation α)) : Prop where
  /-- The number of equations. -/
  length_eq : system.length = n
  /-- Each has a coefficient for every unknown. -/
  coefficients : ∀ e ∈ system, e.coefficients.length = n
  /-- Each has a point as its value. -/
  value : ∀ e ∈ system, e.value.length = d

/-- The points solve the equation. -/
def Holds {α : Type} [Scalar α] (d : Nat) (e : Equation α) (points : List (Point α)) : Prop :=
  Point.combine d e.coefficients points = e.value

/-- What is found solves the system. -/
def IsSolver {α : Type} [Scalar α] (solve : List (Equation α) → Option (List (Point α))) : Prop :=
  ∀ ⦃n d : Nat⦄ ⦃system : List (Equation α)⦄ ⦃solution : List (Point α)⦄,
    Square n d system → solve system = some solution → ∀ e ∈ system, e.Holds d solution

variable {K : Type} [Field K] [LinearOrder K] {d n : Nat}

/-- The combination of vectors with coefficients. -/
def weigh (as : List K) (vs : List (Fin d → K)) : Fin d → K :=
  (List.zipWith (fun a v => a • v) as vs).sum

theorem weigh_cons (a : K) (as : List K) (v : Fin d → K) (vs : List (Fin d → K)) :
    weigh (a :: as) (v :: vs) = a • v + weigh as vs := by
  simp [weigh]

theorem holds_iff {e : Equation K} (size : e.value.length = d) {vs : List (Fin d → K)} :
    e.Holds d (vs.map Point.ofVec) ↔ weigh e.coefficients vs = Point.coords d e.value := by
  rw [Holds, Point.combine_ofVec, ← Point.ofVec_injective.eq_iff, Point.ofVec_coords size]
  rfl

omit [Field K] [LinearOrder K] in
theorem zipWith_ofVec (g : K → K → K) (v w : Fin d → K) :
    List.zipWith g (Point.ofVec v) (Point.ofVec w) = Point.ofVec fun i => g (v i) (w i) := by
  refine List.ext_getElem (by simp) fun i h₁ h₂ => ?_
  simp [Point.ofVec]

/-- A multiple of one row, subtracted from another, subtracts the multiple of what it weighs. -/
theorem weigh_sub_mul (f : K) {ps as : List K} {vs : List (Fin d → K)}
    (hp : ps.length = vs.length) (ha : as.length = vs.length) :
    weigh (List.zipWith (fun p a => -p * f + a) ps as) vs = weigh as vs - f • weigh ps vs := by
  induction vs generalizing ps as with
  | nil => simp [weigh]
  | cons v vs ih =>
      obtain ⟨p, ps, rfl⟩ := List.exists_cons_of_length_eq_add_one hp
      obtain ⟨a, as, rfl⟩ := List.exists_cons_of_length_eq_add_one ha
      rw [List.zipWith_cons_cons, weigh_cons, weigh_cons, weigh_cons,
          ih (Nat.succ.inj hp) (Nat.succ.inj ha)]
      module

/-! ## §2. Single steps. -/

/-- What is left of an equation is its row less a multiple of the pivot row, also where the
multiple is zero. -/
theorem eliminate_eq {pivot e : Equation K} (finite : Bool) (inverse : K)
    (coefficients : pivot.coefficients.length = e.coefficients.length)
    (value : pivot.value.length = e.value.length) :
    pivot.eliminate finite inverse e
      = { coefficients := List.zipWith (fun p a => -p * (e.lead * inverse) + a)
            pivot.coefficients.tail e.coefficients.tail
          value := List.zipWith (fun p a => -p * (e.lead * inverse) + a) pivot.value e.value } := by
  have same : ∀ {ps as : List K}, ps.length = as.length →
      List.zipWith (fun p a => -p * 0 + a) ps as = as := fun {ps as} length => by
    refine List.ext_getElem (by simp [length]) fun i h₁ h₂ => ?_
    simp
  unfold eliminate
  dsimp only
  split
  · next skipped =>
      have zero : e.lead * inverse = 0 := by
        simpa using (Bool.and_eq_true_iff.1 skipped).2
      rw [zero, same value, same (by simp [coefficients])]
      rfl
  · rfl

/-- **Points that hold the pivot equation and what is left of another one hold this one.** -/
theorem holds_of_eliminate {pivot e : Equation K} {v : Fin d → K} {vs : List (Fin d → K)}
    {finite : Bool} (nonzero : pivot.lead ≠ 0) (hp : pivot.coefficients.length = vs.length + 1)
    (he : e.coefficients.length = vs.length + 1) (hpv : pivot.value.length = d)
    (hev : e.value.length = d) (first : pivot.Holds d ((v :: vs).map Point.ofVec))
    (left : (pivot.eliminate finite (1 / pivot.lead) e).Holds d (vs.map Point.ofVec)) :
    e.Holds d ((v :: vs).map Point.ofVec) := by
  obtain ⟨pc, pv⟩ := pivot
  obtain ⟨ec, ev⟩ := e
  obtain ⟨p, ps, rfl⟩ := List.exists_cons_of_length_eq_add_one hp
  obtain ⟨a, as, rfl⟩ := List.exists_cons_of_length_eq_add_one he
  change pv.length = d at hpv
  change ev.length = d at hev
  rw [eliminate_eq finite _ (hp.trans he.symm) (hpv.trans hev.symm)] at left
  rw [holds_iff hpv, weigh_cons] at first
  rw [holds_iff hev, weigh_cons]
  change p ≠ 0 at nonzero
  change Holds d ⟨List.zipWith (fun q b => -q * (a * (1 / p)) + b) ps as,
    List.zipWith (fun q b => -q * (a * (1 / p)) + b) pv ev⟩ _ at left
  change p • v + weigh ps vs = Point.coords d pv at first
  show a • v + weigh as vs = Point.coords d ev
  have values : List.zipWith (fun q b => -q * (a * (1 / p)) + b) pv ev
      = Point.ofVec (Point.coords d ev - (a * (1 / p)) • Point.coords d pv) := by
    conv_lhs => rw [← Point.ofVec_coords hpv, ← Point.ofVec_coords hev, zipWith_ofVec]
    congr 1
    funext i
    simp only [Pi.sub_apply, Pi.smul_apply, smul_eq_mul]
    ring
  rw [values, holds_iff (Point.length_ofVec _), Point.coords_ofVec,
      weigh_sub_mul _ (Nat.succ.inj hp) (Nat.succ.inj he)] at left
  -- the multiple of the pivot equation puts the first unknown back
  have share : (a * (1 / p)) • (p • v) = a • v := by
    rw [smul_smul, mul_assoc, one_div_mul_cancel nonzero, mul_one]
  rw [← first, smul_add, share, sub_eq_sub_iff_add_eq_add] at left
  refine add_right_cancel (b := (a * (1 / p)) • weigh ps vs) ?_
  rw [← left]
  abel

/-- **The first unknown solves its equation.** -/
theorem holds_firstUnknown {e : Equation K} {vs : List (Fin d → K)} (nonzero : e.lead ≠ 0)
    (coefficients : e.coefficients.length = vs.length + 1) (value : e.value.length = d) :
    ∃ v, e.firstUnknown (vs.map Point.ofVec) = Point.ofVec v
      ∧ e.Holds d ((v :: vs).map Point.ofVec) := by
  obtain ⟨ec, ev⟩ := e
  obtain ⟨a, as, rfl⟩ := List.exists_cons_of_length_eq_add_one coefficients
  change a ≠ 0 at nonzero
  have rest : ∀ {as : List K} {vs : List (Fin d → K)} (b : Fin d → K), as.length = vs.length →
      (as.zip (vs.map Point.ofVec)).foldr
          (fun ax value => List.zipWith (fun x b => -x * ax.1 + b) ax.2 value) (Point.ofVec b)
        = Point.ofVec (b - weigh as vs) := by
    intro as vs b length
    induction vs generalizing as with
    | nil => simp [weigh]
    | cons v vs ih =>
        obtain ⟨a, as, rfl⟩ := List.exists_cons_of_length_eq_add_one length
        rw [List.map_cons, List.zip_cons_cons, List.foldr_cons, ih (Nat.succ.inj length),
            zipWith_ofVec, weigh_cons]
        congr 1
        funext i
        simp only [Pi.sub_apply, Pi.add_apply, Pi.smul_apply, smul_eq_mul]
        ring
  refine ⟨a⁻¹ • (Point.coords d ev - weigh as vs), ?_, ?_⟩
  · rw [← Point.divide_ofVec, ← rest _ (Nat.succ.inj coefficients), Point.ofVec_coords value]
    rfl
  · rw [holds_iff value]
    show weigh (a :: as) _ = Point.coords d ev
    rw [weigh_cons, smul_smul, mul_inv_cancel₀ nonzero, one_smul, sub_add_cancel]

/-! ## §3. Pivots. -/

/-- What is largest is what was largest before or larger. -/
theorem largest_spec (best : Nat × K) (i : Nat) (rest : List (Equation K)) :
    largest best i rest = best
      ∨ best.2 < (largest best i rest).2
        ∧ ∃ k, ∃ h : k < rest.length, (largest best i rest).1 = i + k
          ∧ (largest best i rest).2 = Scalar.abs rest[k].lead := by
  induction rest generalizing best i with
  | nil => exact .inl rfl
  | cons e rest ih =>
      rw [largest]
      split
      · next above =>
          refine .inr ?_
          rcases ih (i, Scalar.abs e.lead) (i + 1) with same | ⟨larger, k, hk, index, size⟩
          · rw [same]
            exact ⟨above, 0, Nat.succ_pos _, rfl, rfl⟩
          · exact ⟨above.trans larger, k + 1, Nat.succ_lt_succ hk, by rw [index]; omega, size⟩
      · rcases ih best (i + 1) with same | ⟨larger, k, hk, index, size⟩
        · exact .inl same
        · exact .inr ⟨larger, k + 1, Nat.succ_lt_succ hk, by rw [index]; omega, size⟩

/-- The pivot and the others are the equations there were. -/
theorem mem_choosePivot (e : Equation K) (rest : List (Equation K)) (f : Equation K) :
    f = (choosePivot e rest).1 ∨ f ∈ (choosePivot e rest).2 ↔ f = e ∨ f ∈ rest := by
  unfold choosePivot
  split
  · rfl
  · next i _ =>
      rcases Nat.lt_or_ge i rest.length with inside | beyond
      · have perm : (rest[i] :: rest.set i e).Perm (e :: rest) := by
          have cut := List.set_eq_take_append_cons_drop (l := rest) (i := i) (a := e)
          rw [if_pos inside] at cut
          have whole : rest = rest.take i ++ rest[i] :: rest.drop (i + 1) := by simp
          rw [cut]
          conv_rhs => rw [whole]
          refine (List.perm_middle.cons rest[i]).trans ?_
          exact (List.Perm.swap _ _ _).trans (List.perm_middle.symm.cons e)
        rw [List.getD_eq_getElem _ _ inside]
        simpa using perm.mem_iff (a := f)
      · rw [List.getD_eq_default _ _ beyond, List.set_eq_of_length_le beyond]

variable [IsStrictOrderedRing K]

/-- A pivot that vanishes leaves no other one. -/
theorem lead_eq_zero_of_choosePivot {e : Equation K} {rest : List (Equation K)}
    (zero : (choosePivot e rest).1.lead = 0) : e.lead = 0 := by
  unfold choosePivot at zero
  rcases largest_spec (0, Scalar.abs e.lead) 1 rest with same | ⟨larger, k, hk, index, size⟩
  · rwa [same] at zero
  · rw [show (largest (0, Scalar.abs e.lead) 1 rest).1 = k + 1 by omega] at zero
    simp only [List.getD_eq_getElem _ _ hk] at zero
    rw [size, Scalar.abs_eq, Scalar.abs_eq, zero, abs_zero] at larger
    exact absurd larger (not_lt.2 (abs_nonneg _))

/-! ## §4. Systems. -/

variable [Precision K]

omit [IsStrictOrderedRing K] [Precision K] in
/-- One step leaves a square system. -/
theorem Square.eliminate {e : Equation K} {rest : List (Equation K)}
    (h : Square (n + 1) d (e :: rest)) (finite : Bool) (inverse : K) :
    Square n d ((choosePivot e rest).2.map ((choosePivot e rest).1.eliminate finite inverse)) := by
  have member : ∀ f, f = (choosePivot e rest).1 ∨ f ∈ (choosePivot e rest).2 →
      f.coefficients.length = n + 1 ∧ f.value.length = d := fun f hf => by
    have old := List.mem_cons.2 ((mem_choosePivot e rest f).1 hf)
    exact ⟨h.coefficients f old, h.value f old⟩
  have pivot := member _ (.inl rfl)
  have reduced : ∀ f ∈ (choosePivot e rest).2.map
      ((choosePivot e rest).1.eliminate finite inverse),
      f.coefficients.length = n ∧ f.value.length = d := by
    intro f hf
    obtain ⟨g, hg, rfl⟩ := List.mem_map.1 hf
    have other := member g (.inr hg)
    rw [eliminate_eq finite inverse (by omega) (by omega)]
    simp [pivot, other]
  refine ⟨?_, fun f hf => (reduced f hf).1, fun f hf => (reduced f hf).2⟩
  rw [List.length_map, length_choosePivot]
  exact Nat.succ.inj h.length_eq

/-- **Substitution in the triangular system solves the system it comes from.** -/
theorem holds_of_substitute? {system : List (Equation K)} {solution : List (Point K)}
    (h : Square n d system) (found : substitute? (triangular system) = some solution) :
    (∃ vs : List (Fin d → K), vs.length = n ∧ solution = vs.map Point.ofVec)
      ∧ ∀ e ∈ system, e.Holds d solution := by
  induction n generalizing system solution with
  | zero =>
      obtain rfl := List.length_eq_zero_iff.1 h.length_eq
      rw [triangular, substitute?] at found
      obtain rfl := Option.some.inj found
      exact ⟨⟨[], rfl, rfl⟩, by simp⟩
  | succ n ih =>
      obtain ⟨e, rest, rfl⟩ := List.exists_cons_of_length_eq_add_one h.length_eq
      rw [triangular] at found
      dsimp only at found
      split at found
      · next zero =>
          -- the substitution refuses the equation that is left standing
          have lead : e.lead = 0 := lead_eq_zero_of_choosePivot (by simpa using zero)
          rw [substitute?] at found
          split at found
          · cases found
          · rw [if_pos (by simpa using lead)] at found
            cases found
      · next nonzero =>
          rw [substitute?] at found
          split at found
          · cases found
          · next others some =>
              rw [if_neg nonzero] at found
              obtain rfl := Option.some.inj found
              have pivot : (choosePivot e rest).1.lead ≠ 0 := by simpa using nonzero
              have member : ∀ f, f = (choosePivot e rest).1 ∨ f ∈ (choosePivot e rest).2 →
                  f ∈ e :: rest := fun f hf =>
                List.mem_cons.2 ((mem_choosePivot e rest f).1 hf)
              obtain ⟨⟨vs, length, rfl⟩, solved⟩ := ih (h.eliminate _ _) some
              have first := member _ (.inl rfl)
              obtain ⟨v, unknown, holds⟩ := holds_firstUnknown pivot
                (by rw [h.coefficients _ first, length]) (h.value _ first)
              rw [unknown]
              refine ⟨⟨v :: vs, by rw [List.length_cons, length], rfl⟩, fun f hf => ?_⟩
              rcases (mem_choosePivot e rest f).2 (List.mem_cons.1 hf) with rfl | other
              · exact holds
              · exact holds_of_eliminate pivot (by rw [h.coefficients _ first, length])
                  (by rw [h.coefficients f hf, length]) (h.value _ first) (h.value f hf) holds
                  (solved _ (List.mem_map_of_mem other))

/-- **Elimination with partial pivoting solves what it solves.** -/
theorem isSolver_solve? : IsSolver (solve? : List (Equation K) → Option (List (Point K))) := by
  intro n d system solution square found e he
  unfold solve? at found
  split at found
  · next empty =>
      -- points without coordinates are all the same
      obtain rfl := Option.some.inj found
      have none : e.value = [] := by simpa using List.all_eq_true.1 empty e he
      obtain rfl : d = 0 := by rw [← square.value e he, none, List.length_nil]
      rw [Holds, none]
      refine List.length_eq_zero_iff.1 (Point.length_combine _ fun p hp => ?_)
      obtain ⟨_, -, rfl⟩ := List.mem_map.1 hp
      rfl
  · exact (holds_of_substitute? square found).2 e he

end RationalSpline.Equation
