/-
  RationalSpline.Proofs.Smoothness
  ────────────────────────────────
  HOW THE PIECES OF A SPLINE FIT TOGETHER.

  Pieces of a spline share control points.  In the language of forms: the forms of two
  spans agree on all arguments among which are the knots between them, each as often as
  the knot vector repeats it.  In `inc` degrees more the same holds with `inc` copies
  more of each of those knots.
-/
import RationalSpline.Proofs.ElevatedForm
import RationalSpline.Proofs.Pieces

namespace RationalSpline

variable {K : Type} [Field K] [LinearOrder K] {d p : Nat}

/-! ## §1. Stretches of a list. -/

/-- The `n` entries of a list from an index on. -/
theorem stretch_eq_coe (U : KnotVector K) {i n : Nat} (h : i + n ≤ U.size) :
    stretch U.knot i n = ((U.values.drop i).take n : List K) := by
  induction n generalizing i with
  | zero => rfl
  | succ n ih =>
      have inside : i < U.values.length := by
        show i < U.size
        omega
      rw [stretch_succ, ih (by omega), List.drop_eq_getElem_cons inside, List.take_succ_cons,
          ← Multiset.cons_coe, U.knot_eq_getElem inside]

theorem count_stretch_le (U : KnotVector K) {i n : Nat} (h : i + n ≤ U.size) (x : K) :
    (stretch U.knot i n).count x ≤ U.count x := by
  rw [stretch_eq_coe U h, Multiset.coe_count, KnotVector.count_eq_list_count]
  exact ((List.take_sublist _ _).trans (List.drop_sublist _ _)).count_le x

/-- What holds each knot of a stretch as often as it is repeated holds the stretch. -/
theorem stretch_le (U : KnotVector K) {i n : Nat} (h : i + n ≤ U.size) {s : Multiset K}
    (held : ∀ r < n, U.count (U.knot (i + r)) ≤ s.count (U.knot (i + r))) :
    stretch U.knot i n ≤ s := by
  refine Multiset.le_iff_count.2 fun x => ?_
  by_cases member : x ∈ stretch U.knot i n
  · obtain ⟨r, hr, rfl⟩ := exists_of_mem_stretch member
    exact le_trans (count_stretch_le U h _) (held r hr)
  · rw [Multiset.count_eq_zero_of_notMem member]
    exact Nat.zero_le _

/-! ## §2. Agreement of the forms. -/

/-- Control points that act on two spans make their forms agree where all knots between
them are held. -/
theorem Follows.agree {U : KnotVector K} {P : List (Point K)} {F : Pieces K d p}
    (ordered : U.Ordered) (size : U.size = P.length + p + 1) (h : Follows U P F) {i i' : Nat}
    (hp : p ≤ i) (hii' : i ≤ i') (hi' : i' < P.length) {t t' : K}
    (low : U.knot i < t) (high : t < U.knot (i + 1)) (low' : U.knot i' < t')
    (high' : t' < U.knot (i' + 1)) {s : Multiset K} (card : s.card = p)
    (between : stretch U.knot (i + 1) (i' - i) ≤ s) : F t s = F t' s := by
  have fits : i' - i ≤ p := by
    have le := Multiset.card_le_card between
    rwa [card_stretch, card] at le
  obtain ⟨q, hq⟩ : ∃ q, q + (i' - i) = p := ⟨p - (i' - i), by omega⟩
  refine PolarForm.eq_of_held (a := i + 1 - q) hq ?_ ?_ card
    (by rwa [show i + 1 - q + q = i + 1 by omega])
  · intro r hr r' hr'
    have below : U.knot (i + 1 - q + r) ≤ U.knot i := ordered.knot_le (by omega) (by omega)
    have across : U.knot (i + 1) ≤ U.knot (i + 1 - q + q + (i' - i) + r') :=
      ordered.knot_le (by omega) (by omega)
    exact ne_of_lt (lt_of_le_of_lt below (lt_of_lt_of_le (lt_trans low high) across))
  · intro j hj
    refine Point.ofVec_injective ?_
    rw [show i + 1 - q + j = i - q + j + 1 by omega,
        ← h i hp (by omega) t low high (i - q + j) (by omega) (by omega),
        ← h i' (by omega) hi' t' low' high' (i - q + j) (by omega) (by omega)]

/-- A parameter inside one of the spans on which the control points act. -/
def Inside (U : KnotVector K) (p n : Nat) (t : K) : Prop :=
  ∃ i, p ≤ i ∧ i < n ∧ U.knot i < t ∧ t < U.knot (i + 1)

/-- **Forms agree where every knot between them is held as often as it is repeated.** -/
theorem Follows.agree_of_count {U : KnotVector K} {P : List (Point K)} {F : Pieces K d p}
    (ordered : U.Ordered) (size : U.size = P.length + p + 1) (h : Follows U P F) {t t' : K}
    (ht : Inside U p P.length t) (ht' : Inside U p P.length t') (htt' : t < t')
    {s : Multiset K} (card : s.card = p)
    (count : ∀ x ∈ U.values, t < x → x < t' → U.count x ≤ s.count x) : F t s = F t' s := by
  obtain ⟨i, hp, hi, low, high⟩ := ht
  obtain ⟨i', hp', hi', low', high'⟩ := ht'
  have hii' : i ≤ i' := by
    have := ordered.lt_of_knot_lt (i := i) (j := i' + 1) (by omega)
      (lt_trans low (lt_trans htt' high'))
    omega
  refine h.agree ordered size hp hii' hi' low high low' high' card
    (stretch_le U (by omega) fun r hr => ?_)
  have after : t < U.knot (i + 1 + r) :=
    lt_of_lt_of_le high (ordered.knot_le (by omega) (by omega))
  have before : U.knot (i + 1 + r) < t' :=
    lt_of_le_of_lt (ordered.knot_le (by omega) (by omega)) low'
  exact count _ (U.knot_mem (by omega)) after before

/-- In a higher degree the knots between have to be held so much more often. -/
theorem Follows.elevate_agree {U : KnotVector K} {P : List (Point K)} {F : Pieces K d p}
    (ordered : U.Ordered) (size : U.size = P.length + p + 1) (h : Follows U P F) {t t' : K}
    (ht : Inside U p P.length t) (ht' : Inside U p P.length t') (htt' : t < t') {inc : Nat}
    {s : Multiset K} (card : s.card = p + inc)
    (count : ∀ x ∈ U.values, t < x → x < t' → U.count x + inc ≤ s.count x) :
    (F t).elevate inc s = (F t').elevate inc s := by
  refine PolarForm.elevate_congr fun u le card' => ?_
  refine h.agree_of_count ordered size ht ht' htt' card' fun x hx low high => ?_
  -- at most `inc` copies are left out
  obtain ⟨v, rfl⟩ := Multiset.le_iff_exists_add.1 le
  have := count x hx low high
  have few := Multiset.count_le_card x v
  rw [Multiset.count_add] at this
  rw [Multiset.card_add] at card
  omega

end RationalSpline
