/-
  RationalSpline.Proofs.RaisedSegment
  ───────────────────────────────────
  ONE SEGMENT OF A RAISED SPLINE.

  What one step of the elevation computes, in the language of forms.  A segment runs
  from the knot `a` to the knot `b`.

    • The triangle of `levels` exchanges, from row to row, one argument `a` for `b`; its
      two edges are the Bézier points and the points in which the next segment begins.
    • A sweep exchanges the copies of `a` that were added, from entry to entry: before
      `a` for copies of `b`, after `a` for the raised knots before it.

  Both are the affinity of the form in the argument that is exchanged.
-/
import RationalSpline.Proofs.ElevatedForm

namespace RationalSpline.Spline

variable {K : Type} [Field K] {d p : Nat}

/-! ## §1. Rows of points. -/

/-- A row of the triangle: the last argument of entry `j` is the `j`-th knot after `b`. -/
def triangleRow (f : PolarForm K (Fin d → K) p) (a : K) (held : Multiset K) (after : List K)
    (n : Nat) : List (Point K) :=
  (List.range (n + 1)).map fun j =>
    Point.ofVec (f (Multiset.replicate (n - j) a + held + (after.take j : List K)))

/-- The control points of a segment whose first knot `a` has full multiplicity. -/
def segmentRow (f : PolarForm K (Fin d → K) p) (a : K) (after : List K) : List (Point K) :=
  triangleRow f a 0 after p

/-- The Bézier points of the piece from `a` to `b`. -/
def bezierRow (f : PolarForm K (Fin d → K) p) (a b : K) : List (Point K) :=
  (List.range (p + 1)).map fun i =>
    Point.ofVec (f (Multiset.replicate (p - i) a + Multiset.replicate i b))

theorem length_segmentRow (f : PolarForm K (Fin d → K) p) (a : K) (after : List K) :
    (segmentRow f a after).length = p + 1 := by
  simp [segmentRow, triangleRow]

theorem getD_bezierRow (f : PolarForm K (Fin d → K) p) (a b : K) {i : Nat} (hi : i ≤ p) :
    (bezierRow f a b).getD i []
      = Point.ofVec (f (Multiset.replicate (p - i) a + Multiset.replicate i b)) := by
  rw [bezierRow, List.getD_eq_getElem _ _ (by simp; omega)]
  simp

/-- As far as only `b` follows, the points of the segment are Bézier points. -/
theorem take_segmentRow (f : PolarForm K (Fin d → K) p) (a b : K) {μ n : Nat} (later : List K)
    (hn : n ≤ μ) (hp : n ≤ p + 1) :
    (segmentRow f a (List.replicate μ b ++ later)).take n = (bezierRow f a b).take n := by
  simp only [segmentRow, triangleRow, bezierRow, ← List.map_take, List.take_range,
    min_eq_left hp]
  refine List.map_congr_left fun i hi => ?_
  have hi' := List.mem_range.1 hi
  rw [List.take_append_of_le_length (by simp; omega), List.take_replicate,
      min_eq_left (by omega), Multiset.coe_replicate, add_zero]

/-- From there on they are the first row of the triangle. -/
theorem drop_segmentRow (f : PolarForm K (Fin d → K) p) (a b : K) {μ : Nat} (later : List K)
    (hμ : μ ≤ p) :
    (segmentRow f a (List.replicate μ b ++ later)).drop μ
      = triangleRow f a (Multiset.replicate μ b) later (p - μ) := by
  simp only [segmentRow, triangleRow, ← List.map_drop, List.range_eq_range', List.drop_range']
  rw [List.range'_eq_map_range, List.map_map, show p + 1 - μ = p - μ + 1 by omega,
      ← List.range_eq_range']
  refine List.map_congr_left fun j hj => ?_
  have hj' := List.mem_range.1 hj
  simp only [Function.comp_apply, mul_one, Nat.zero_add]
  rw [List.take_append, List.take_of_length_le (by simp), List.length_replicate,
      Nat.add_sub_cancel_left, ← Multiset.coe_add, Multiset.coe_replicate, add_zero, ← add_assoc,
      show p - (μ + j) = p - μ - j by omega]

/-! ## §2. The triangle. -/

variable [LinearOrder K]

/-- The combinations of neighbours, by index. -/
theorem blendPairs_map (coefficients : List K) (n : Nat) (g : Nat → Point K)
    (enough : n ≤ coefficients.length) :
    blendPairs coefficients ((List.range (n + 1)).map g)
      = (List.range n).map fun j => Point.blend (coefficients.getD j 0) (g j) (g (j + 1)) := by
  induction n generalizing coefficients g with
  | zero => cases coefficients <;> rfl
  | succ n ih =>
      cases coefficients with
      | nil => simp at enough
      | cons c rest =>
          have tail := ih rest (fun j => g (j + 1)) (by simpa using enough)
          rw [List.range_succ_eq_map, List.map_cons, List.map_map] at tail
          rw [List.range_succ_eq_map, List.map_cons, List.map_map,
              List.range_succ_eq_map, List.map_cons, List.map_map, blendPairs, List.map_cons,
              List.map_map]
          exact congrArg (_ :: ·) tail

omit [Field K] [LinearOrder K] in
theorem coe_take_succ {l : List K} {n : Nat} (inside : n < l.length) :
    ((l.take (n + 1) : List K) : Multiset K) = l[n] ::ₘ (l.take n : List K) := by
  rw [← List.take_concat_get' _ _ inside, ← Multiset.coe_add, Multiset.coe_singleton, add_comm,
      Multiset.singleton_add]

/-- The next row holds one `b` more. -/
theorem blendPairs_triangleRow (f : PolarForm K (Fin d → K) p) {a b : K} {held : Multiset K}
    {after : List K} {n : Nat} (card : held.card + (n + 1) = p) (enough : n < after.length)
    (apart : ∀ x ∈ after, x ≠ a) {coefficients : List K}
    (coefficient : ∀ j ≤ n, coefficients.getD j 0 = (b - a) / (after.getD j 0 - a))
    (many : n < coefficients.length) :
    blendPairs coefficients (triangleRow f a held after (n + 1))
      = triangleRow f a (b ::ₘ held) after n := by
  rw [triangleRow, blendPairs_map _ _ _ many]
  refine List.map_congr_left fun j hj => ?_
  have hj' : j ≤ n := by
    have := List.mem_range.1 hj
    omega
  have inside : j < after.length := by omega
  have knot : after.getD j 0 = after[j] := List.getD_eq_getElem _ _ inside
  obtain ⟨s, hs⟩ : ∃ s, s = Multiset.replicate (n - j) a + held + (after.take j : List K) :=
    ⟨_, rfl⟩
  have first : Multiset.replicate (n + 1 - j) a + held + (after.take j : List K) = a ::ₘ s := by
    rw [hs, show n + 1 - j = n - j + 1 by omega, Multiset.replicate_succ, Multiset.cons_add,
        Multiset.cons_add]
  have second : Multiset.replicate (n + 1 - (j + 1)) a + held + (after.take (j + 1) : List K)
      = after[j] ::ₘ s := by
    rw [hs, Nat.add_sub_add_right, coe_take_succ inside, Multiset.add_cons]
  have target : Multiset.replicate (n - j) a + b ::ₘ held + (after.take j : List K)
      = b ::ₘ s := by
    rw [hs, Multiset.add_cons, Multiset.cons_add]
  have size : s.card + 1 = p := by
    rw [hs]
    simp only [Multiset.card_add, Multiset.card_replicate, Multiset.coe_card, List.length_take]
    omega
  rw [coefficient j hj', first, second, target, Point.blend_ofVec, knot,
      ← f.between size (apart _ (List.getElem_mem inside))]

/-- The edges of the triangle. -/
theorem levels_triangleRow (f : PolarForm K (Fin d → K) p) {a b : K} (held : Multiset K)
    (after : List K) {n : Nat} (card : held.card + n = p) (enough : n ≤ after.length)
    (apart : ∀ x ∈ after, x ≠ a) {coefficients : List K}
    (coefficient : ∀ j < n, coefficients.getD j 0 = (b - a) / (after.getD j 0 - a))
    (many : n ≤ coefficients.length) :
    (levels coefficients n (triangleRow f a held after n)).filterMap List.head?
        = (List.range (n + 1)).map (fun r => Point.ofVec
            (f (Multiset.replicate (n - r) a + Multiset.replicate r b + held)))
      ∧ (levels coefficients n (triangleRow f a held after n)).filterMap List.getLast?
        = (List.range (n + 1)).map (fun r => Point.ofVec
            (f (Multiset.replicate r b + held + (after.take (n - r) : List K)))) := by
  induction n generalizing held with
  | zero => simp [levels, triangleRow]
  | succ n ih =>
      -- the induction is on the rows left: the next row holds one `b` more
      have next := blendPairs_triangleRow f card enough apart
        (fun j hj => coefficient j (by omega)) many
      obtain ⟨heads, lasts⟩ := ih (b ::ₘ held) (by rw [Multiset.card_cons]; omega)
        (by omega) (fun j hj => coefficient j (by omega)) (by omega)
      have head : (triangleRow f a held after (n + 1)).head?
          = some (Point.ofVec (f (Multiset.replicate (n + 1) a + held))) := by
        simp [triangleRow, List.range_succ_eq_map]
      have last : (triangleRow f a held after (n + 1)).getLast?
          = some (Point.ofVec (f (held + (after.take (n + 1) : List K)))) := by
        rw [triangleRow, List.range_succ, List.map_append, List.map_cons, List.map_nil,
            List.getLast?_concat]
        simp
      have row : ∀ l : List (Point K), levels coefficients (n + 1) l
          = l :: levels coefficients n (blendPairs coefficients l) := fun _ => rfl
      constructor
      · rw [row, next, List.filterMap_cons_some head, heads, List.range_succ_eq_map (n := n + 1),
            List.map_cons, List.map_map]
        refine congrArg₂ _ (by simp) (List.map_congr_left fun r _ => ?_)
        simp only [Function.comp_apply, Nat.succ_eq_add_one, Nat.add_sub_add_right]
        rw [Multiset.replicate_succ, Multiset.add_cons, Multiset.add_cons, Multiset.cons_add]
      · rw [row, next, List.filterMap_cons_some last, lasts, List.range_succ_eq_map (n := n + 1),
            List.map_cons, List.map_map]
        refine congrArg₂ _ (by simp) (List.map_congr_left fun r _ => ?_)
        simp only [Function.comp_apply, Nat.succ_eq_add_one, Nat.add_sub_add_right]
        rw [Multiset.replicate_succ, Multiset.add_cons, Multiset.cons_add, Multiset.cons_add,
            Multiset.cons_add]

/-- The coefficients of the triangle. -/
theorem getD_coefficients {a b : K} {later : List K} {n j : Nat} (hj : j < n)
    (enough : n ≤ later.length) :
    ((later.take n).map fun k => (b - a) / (k - a)).getD j 0 = (b - a) / (later.getD j 0 - a) := by
  rw [List.getD_eq_getElem _ _ (by simp; omega), List.getD_eq_getElem _ _ (by omega)]
  simp

/-- **The Bézier points of a segment**, those before the triangle and its first edge. -/
theorem bezier_of_segment (f : PolarForm K (Fin d → K) p) {a b : K} {μ : Nat} {later : List K}
    (apart : ∀ x ∈ later, x ≠ a) (full : p < μ ∨ p - μ ≤ later.length) :
    (segmentRow f a (List.replicate μ b ++ later)).take μ
        ++ (levels ((later.take (p - μ)).map fun k => (b - a) / (k - a)) (p - μ)
            ((segmentRow f a (List.replicate μ b ++ later)).drop μ)).filterMap List.head?
      = bezierRow f a b := by
  have length : (bezierRow f a b).length = p + 1 := by simp [bezierRow]
  -- where the break is that full, the segment is the row already and there is no triangle
  by_cases beyond : p < μ
  · have all := take_segmentRow f a b later (show p + 1 ≤ μ by omega) (le_refl _)
    rw [List.take_of_length_le (by rw [length_segmentRow]),
        List.take_of_length_le (by rw [length])] at all
    rw [List.drop_eq_nil_of_le (by rw [length_segmentRow]; omega),
        List.take_of_length_le (by rw [length_segmentRow]; omega), all,
        show p - μ = 0 by omega]
    simp [levels]
  · have enough : p - μ ≤ later.length := full.resolve_left beyond
    obtain ⟨heads, -⟩ := levels_triangleRow f (a := a) (b := b) (Multiset.replicate μ b)
      later (n := p - μ) (by rw [Multiset.card_replicate]; omega) enough apart
      (fun j hj => getD_coefficients hj enough) (by simp; omega)
    rw [take_segmentRow f a b later (le_refl μ) (by omega),
        drop_segmentRow f a b later (by omega), heads]
    refine List.ext_getElem (by simp [length]; omega) fun i h₁ h₂ => ?_
    by_cases early : i < μ
    · rw [List.getElem_append_left (by simp [length]; omega), List.getElem_take]
    · rw [List.getElem_append_right (by simp [length]; omega)]
      have taken : ((bezierRow f a b).take μ).length = μ := by
        rw [List.length_take, length, min_eq_left (by omega)]
      have entry : (bezierRow f a b)[i]
          = Point.ofVec (f (Multiset.replicate (p - i) a + Multiset.replicate i b)) := by
        simp [bezierRow]
      rw [entry]
      simp only [taken, List.getElem_map, List.getElem_range]
      rw [show p - μ - (i - μ) = p - i by omega, add_assoc,
          ← Multiset.replicate_add, show i - μ + μ = i by omega]

/-- **The points in which the next segment begins**: the last edge of the triangle. -/
theorem next_of_segment (f : PolarForm K (Fin d → K) p) {a b : K} {μ : Nat} {later : List K}
    (apart : ∀ x ∈ later, x ≠ a) (hμ : μ ≤ p) (enough : p - μ ≤ later.length) :
    ((levels ((later.take (p - μ)).map fun k => (b - a) / (k - a)) (p - μ)
        ((segmentRow f a (List.replicate μ b ++ later)).drop μ)).filterMap
          List.getLast?).reverse
      = (segmentRow f b later).take (p - μ + 1) := by
  obtain ⟨-, lasts⟩ := levels_triangleRow f (a := a) (b := b) (Multiset.replicate μ b)
      later (n := p - μ) (by rw [Multiset.card_replicate]; omega) enough apart
    (fun j hj => getD_coefficients hj enough) (by simp; omega)
  rw [drop_segmentRow f a b later hμ, lasts]
  refine List.ext_getElem (by simp [length_segmentRow]) fun j h₁ h₂ => ?_
  have hj : j ≤ p - μ := by
    simp at h₁
    omega
  rw [List.getElem_reverse, List.getElem_take]
  simp only [List.length_map, List.length_range, List.getElem_map, List.getElem_range,
    segmentRow, triangleRow]
  rw [show p - μ + 1 - 1 - j = p - μ - j by omega, ← Multiset.replicate_add, add_zero,
      show p - μ - j + μ = p - j by omega, show p - μ - (p - μ - j) = j by omega]

/-! ## §3. Sweeps. -/

/-- An entry that a sweep reaches is combined with what the next has become. -/
theorem getD_sweep {coefficients : List K} {xs : List (Point K)}
    (short : coefficients.length < xs.length) (e : Nat) :
    (sweep coefficients xs).getD e []
      = if e < coefficients.length then
          Point.blend (coefficients.getD e 0) ((sweep coefficients xs).getD (e + 1) [])
            (xs.getD e [])
        else xs.getD e [] := by
  induction coefficients generalizing xs e with
  | nil => cases xs <;> rfl
  | cons c rest ih =>
      cases xs with
      | nil => simp at short
      | cons x xs =>
          have short' : rest.length < xs.length := by simpa using short
          have step : sweep (c :: rest) (x :: xs)
              = Point.blend c ((sweep rest xs).headD []) x :: sweep rest xs := rfl
          cases e with
          | zero =>
              rw [step, List.getD_cons_zero, List.getD_cons_succ, if_pos (by simp)]
              have head : (sweep rest xs).headD [] = (sweep rest xs).getD 0 [] := by
                cases sweep rest xs <;> rfl
              rw [head]
              rfl
          | succ e =>
              rw [step, List.getD_cons_succ, List.getD_cons_succ, ih short' e]
              simp

/-- What an entry is after `n` sweeps, if each sweep does one step of a recurrence. -/
theorem getD_sweeps {C : Nat → List K} {l : List (Point K)} {N : Nat}
    {V : Nat → Nat → Fin d → K} {c : Nat → Nat → K} (enough : N < l.length)
    (length : ∀ n < N, (C n).length = n + 1)
    (coefficient : ∀ n < N, ∀ e ≤ n, (C n).getD e 0 = c n e)
    (start : ∀ e ≤ N, l.getD e [] = Point.ofVec (V 0 e))
    (stay : ∀ n < N, ∀ e ≤ N, n < e → V (n + 1) e = V n e)
    (step : ∀ n < N, ∀ e ≤ n, mix (c n e) (V (n + 1) (e + 1)) (V n e) = V (n + 1) e) :
    ∀ e, (sweeps C N l).getD e []
      = if e ≤ N then Point.ofVec (V N e) else l.getD e [] := by
  have upTo : ∀ n ≤ N, ∀ e, (sweeps C n l).getD e []
      = if e ≤ N then Point.ofVec (V n e) else l.getD e [] := by
    intro n
    induction n with
    | zero =>
        intro _ e
        split
        · next le => exact start e le
        · rfl
    | succ n ih =>
        intro hn e
        have short : (C n).length < (sweeps C n l).length := by
          rw [length n hn, length_sweeps]
          omega
        -- entries are settled from the last that the sweep reaches down to the first
        have settled : ∀ r, ∀ e, n + 1 ≤ e + r →
            (sweep (C n) (sweeps C n l)).getD e []
              = if e ≤ N then Point.ofVec (V (n + 1) e) else l.getD e [] := by
          intro r
          induction r with
          | zero =>
              intro e he
              rw [getD_sweep short, if_neg (by rw [length n hn]; omega), ih (by omega)]
              split
              · next le => rw [stay n hn e le (by omega)]
              · rfl
          | succ r ihr =>
              intro e he
              by_cases reached : e ≤ n
              · rw [getD_sweep short, if_pos (by rw [length n hn]; omega),
                    ihr (e + 1) (by omega), ih (by omega), if_pos (by omega), if_pos (by omega),
                    if_pos (by omega), Point.blend_ofVec, coefficient n hn e reached,
                    step n hn e reached]
              · exact ihr e (by omega)
        exact settled (n + 1) e (by omega)
  exact upTo N (le_refl N)

/-- The first `N` sweeps reach no entry from `N` on. -/
theorem getD_sweeps_beyond {C : Nat → List K} {l : List (Point K)} {N : Nat}
    (enough : N < l.length) (length : ∀ n < N, (C n).length = n + 1) {e : Nat} (he : N ≤ e) :
    (sweeps C N l).getD e [] = l.getD e [] := by
  induction N with
  | zero => rfl
  | succ N ih =>
      have reach : (C N).length = N + 1 := length N (by omega)
      show (sweep (C N) (sweeps C N l)).getD e [] = _
      rw [getD_sweep (by rw [reach, length_sweeps]; omega), if_neg (by omega)]
      exact ih (by omega) (fun n hn => length n (by omega)) (by omega)

theorem getD_mendBefore_beyond {front : Front K} {b : K}
    (enough : front.added / 2 < front.pointsBefore.length) {e : Nat} (he : front.added / 2 ≤ e) :
    (mendBefore front b).getD e [] = front.pointsBefore.getD e [] :=
  getD_sweeps_beyond enough (fun n _ => by simp) he

/-- One copy of `a` is exchanged for another argument that lies between `x` and `a`. -/
theorem exchange (g : PolarForm K (Fin d → K) p) {x a v : K} (apart : a ≠ x) {s : Multiset K}
    (card : s.card + 1 = p) {l m r : Multiset K} (hl : l = x ::ₘ s) (hm : m = a ::ₘ s)
    (hr : r = v ::ₘ s) : mix ((v - x) / (a - x)) (g l) (g m) = g r := by
  rw [hl, hm, hr, ← g.between card apart]

theorem ratioBefore_eq (front : Front K) (b : K) {n : Nat} (inside : n < front.knotsBefore.length) :
    ratioBefore front b n
      = (b - front.knotsBefore[n]) / (front.knot - front.knotsBefore[n]) := by
  rw [ratioBefore, List.getD_eq_getElem _ _ inside]

/-- The ratio after the knot is one of the way from `b`. -/
theorem ratioAfter_eq (front : Front K) (b : K) {n : Nat} (inside : n < front.knotsBefore.length) :
    ratioAfter front b 0 n = (front.knotsBefore[n] - b) / (front.knot - b) := by
  rw [ratioAfter, if_neg (Nat.not_lt_zero _), List.getD_eq_getElem _ _ inside, ← neg_sub _ b,
      ← neg_sub _ b, neg_div_neg_eq]

/-- What the entry `e` is after `n` sweeps before `a`: `n - e` copies of `b` have come for `a`. -/
def sweptBefore (front : Front K) (b : K) (g : PolarForm K (Fin d → K) p) (n e : Nat) : Fin d → K :=
  g (Multiset.replicate (n - e) b
    + Multiset.replicate (p - ((front.added + 1) / 2 + max n e)) front.knot
    + (front.knotsBefore.take ((front.added + 1) / 2 + e) : List K))

omit [LinearOrder K] in
/-- A sweep leaves the entries behind it. -/
theorem sweptBefore_stay (front : Front K) (b : K) (g : PolarForm K (Fin d → K) p) {n e : Nat}
    (lt : n < e) : sweptBefore front b g (n + 1) e = sweptBefore front b g n e := by
  simp only [sweptBefore, Nat.sub_eq_zero_of_le lt.le, Nat.sub_eq_zero_of_le (Nat.succ_le_of_lt lt),
    max_eq_right (Nat.succ_le_of_lt lt), max_eq_right lt.le]

/-- **One sweep before `a` exchanges one copy of `a` for one of `b`.** -/
theorem sweptBefore_step {front : Front K} {b : K} (g : PolarForm K (Fin d → K) p) {n e : Nat}
    (room : (front.added + 1) / 2 + n < p) (le : e ≤ n)
    (inside : (front.added + 1) / 2 + e < front.knotsBefore.length)
    (apart : ∀ x ∈ front.knotsBefore, x ≠ front.knot) :
    mix (ratioBefore front b ((front.added + 1) / 2 + e)) (sweptBefore front b g (n + 1) (e + 1))
      (sweptBefore front b g n e) = sweptBefore front b g (n + 1) e := by
  simp only [sweptBefore]
  generalize (front.added + 1) / 2 = off at *
  rw [ratioBefore_eq front b inside, max_eq_left (show e + 1 ≤ n + 1 by omega), max_eq_left le,
      max_eq_left (show e ≤ n + 1 by omega)]
  refine exchange g (apart _ (List.getElem_mem inside)).symm
    (s := Multiset.replicate (n - e) b + Multiset.replicate (p - (off + (n + 1))) front.knot
      + (front.knotsBefore.take (off + e) : List K)) ?_ ?_ ?_ ?_
  · simp only [Multiset.card_add, Multiset.card_replicate, Multiset.coe_card, List.length_take]
    omega
  · rw [Nat.add_sub_add_right, ← add_assoc off e, coe_take_succ inside, Multiset.add_cons]
  · rw [show p - (off + n) = p - (off + (n + 1)) + 1 by omega, Multiset.replicate_succ,
        Multiset.add_cons, Multiset.cons_add]
  · rw [show n + 1 - e = n - e + 1 by omega, Multiset.replicate_succ, Multiset.cons_add,
        Multiset.cons_add]

/-- **The entries before `a` carry copies of `b`** in place of copies of `a`. -/
theorem getD_mendBefore {front : Front K} {b : K} (g : PolarForm K (Fin d → K) p)
    (enough : front.added / 2 < front.pointsBefore.length) (added : front.added ≤ p)
    (knots : front.added ≤ front.knotsBefore.length)
    (apart : 0 < front.added → ∀ x ∈ front.knotsBefore, x ≠ front.knot)
    (start : ∀ e ≤ front.added / 2, front.pointsBefore.getD e []
      = Point.ofVec (g (Multiset.replicate (p - ((front.added + 1) / 2 + e)) front.knot
          + (front.knotsBefore.take ((front.added + 1) / 2 + e) : List K)))) {e : Nat}
    (he : e ≤ front.added / 2) :
    (mendBefore front b).getD e []
      = Point.ofVec (g (Multiset.replicate (front.added / 2 - e) b
          + ((List.replicate (p - front.added) front.knot ++ front.knotsBefore).take
              (p - (front.added / 2 - e)) : List K))) := by
  have sum : front.added / 2 + (front.added + 1) / 2 = front.added := by omega
  have swept := getD_sweeps (N := front.added / 2) (l := front.pointsBefore)
    (C := fun n => (List.range (n + 1)).map fun r =>
        ratioBefore front b ((front.added + 1) / 2 + r))
    (c := fun _ e => ratioBefore front b ((front.added + 1) / 2 + e))
    (V := sweptBefore front b g) enough (fun n _ => by simp)
    (fun n _ e he => by simp [show e < n + 1 by omega])
    (fun e he => by rw [start e he, sweptBefore]; simp)
    (fun n _ e _ => sweptBefore_stay front b g)
    (fun n hn e he => sweptBefore_step g (by omega) he (by omega) (apart (by omega))) e
  have reach : (List.replicate (p - front.added) front.knot ++ front.knotsBefore).take
      (p - (front.added / 2 - e)) = List.replicate (p - front.added) front.knot
        ++ front.knotsBefore.take ((front.added + 1) / 2 + e) := by
    rw [List.take_append, List.length_replicate, List.take_of_length_le (by simp; omega),
        show p - (front.added / 2 - e) - (p - front.added) = (front.added + 1) / 2 + e by omega]
  rw [mendBefore, swept, if_pos he, sweptBefore, max_eq_left he, add_comm (_ / 2) (front.added / 2),
      sum, reach, ← Multiset.coe_add, Multiset.coe_replicate, add_assoc]

/-- What the entry `e` after `a` is after `n` sweeps: `n - e` of the knots before `a` have come
for it. -/
def sweptAfter (front : Front K) (b : K) (g : PolarForm K (Fin d → K) p) (n e : Nat) : Fin d → K :=
  g (Multiset.replicate (front.added / 2 + 1 + e) b
    + Multiset.replicate (p - (front.added / 2 + 1 + max n e)) front.knot
    + (front.knotsBefore.take (n - e) : List K))

omit [LinearOrder K] in
theorem sweptAfter_stay (front : Front K) (b : K) (g : PolarForm K (Fin d → K) p) {n e : Nat}
    (lt : n < e) : sweptAfter front b g (n + 1) e = sweptAfter front b g n e := by
  simp only [sweptAfter, Nat.sub_eq_zero_of_le lt.le, Nat.sub_eq_zero_of_le (Nat.succ_le_of_lt lt),
    max_eq_right (Nat.succ_le_of_lt lt), max_eq_right lt.le]

/-- **One sweep after `a` exchanges one copy of `a` for a knot before it.** -/
theorem sweptAfter_step {front : Front K} {b : K} (g : PolarForm K (Fin d → K) p) {n e : Nat}
    (room : front.added / 2 + 1 + n < p) (le : e ≤ n)
    (inside : n - e < front.knotsBefore.length) (apart : front.knot ≠ b) :
    mix (ratioAfter front b 0 (n - e)) (sweptAfter front b g (n + 1) (e + 1))
      (sweptAfter front b g n e) = sweptAfter front b g (n + 1) e := by
  simp only [sweptAfter]
  generalize front.added / 2 = N at *
  rw [ratioAfter_eq front b inside, max_eq_left (show e + 1 ≤ n + 1 by omega), max_eq_left le,
      max_eq_left (show e ≤ n + 1 by omega)]
  refine exchange g apart
    (s := Multiset.replicate (N + 1 + e) b
      + Multiset.replicate (p - (N + 1 + (n + 1))) front.knot
      + (front.knotsBefore.take (n - e) : List K)) ?_ ?_ ?_ ?_
  · simp only [Multiset.card_add, Multiset.card_replicate, Multiset.coe_card, List.length_take]
    omega
  · rw [Nat.add_sub_add_right, ← add_assoc _ e, Multiset.replicate_succ, Multiset.cons_add,
        Multiset.cons_add]
  · rw [show p - (N + 1 + n) = p - (N + 1 + (n + 1)) + 1 by omega, Multiset.replicate_succ,
        Multiset.add_cons, Multiset.cons_add]
  · rw [show n + 1 - e = n - e + 1 by omega, coe_take_succ inside, Multiset.add_cons]

/-- **The entries after `a` carry knots before it** in place of copies of `a`. -/
theorem getD_mendAfter {front : Front K} {b : K} {raised : List (Point K)}
    (g : PolarForm K (Fin d → K) p) (length : raised.length = p + 1) (added : front.added < p)
    (knots : front.added ≤ front.knotsBefore.length) (apart : front.knot ≠ b)
    (start : ∀ i ≤ p, raised.getD i []
      = Point.ofVec (g (Multiset.replicate (p - i) front.knot + Multiset.replicate i b)))
    {e : Nat} (he : front.added / 2 + 1 + e ≤ p) :
    (mendAfter front b 0 raised).getD e []
      = Point.ofVec (g (Multiset.replicate (front.added / 2 + 1 + e) b
          + ((List.replicate (p - front.added) front.knot ++ front.knotsBefore).take
              (p - (front.added / 2 + 1 + e)) : List K))) := by
  obtain ⟨M, hM⟩ : ∃ M, (front.added + 1) / 2 - 1 = M := ⟨_, rfl⟩
  have entry : ∀ r, (raised.drop (front.added / 2 + 1)).getD r []
      = raised.getD (front.added / 2 + 1 + r) [] := fun r => by
    simp only [List.getD_eq_getElem?_getD, List.getElem?_drop]
  have swept := getD_sweeps (N := M) (l := raised.drop (front.added / 2 + 1))
    (C := fun n => ((List.range (n + 1)).map (ratioAfter front b 0)).reverse)
    (c := fun n e => ratioAfter front b 0 (n - e))
    (V := sweptAfter front b g) (by rw [List.length_drop]; omega) (fun n _ => by simp)
    (fun n _ e he => by
      rw [List.getD_eq_getElem _ _ (by simp; omega), List.getElem_reverse]
      simp)
    (fun e he => by
      rw [entry, start _ (by omega), sweptAfter, add_comm]
      simp)
    (fun n _ e _ => sweptAfter_stay front b g)
    (fun n hn e he => sweptAfter_step g (by omega) he (by omega) apart) e
  rw [mendAfter, hM, swept, entry]
  split
  · next reached =>
      -- the sweeps have left as many copies as the front has of its own
      have taken : (List.replicate (p - front.added) front.knot ++ front.knotsBefore).take
          (p - (front.added / 2 + 1 + e))
              = List.replicate (p - (front.added / 2 + 1 + M)) front.knot
            ++ front.knotsBefore.take (M - e) := by
        by_cases none : front.added = 0
        · rw [List.take_append_of_le_length (by simp; omega), List.take_replicate,
              show M - e = 0 by omega, List.take_zero, List.append_nil]
          congr 1
          omega
        · rw [List.take_append, List.length_replicate, List.take_of_length_le (by simp; omega),
              show p - (front.added / 2 + 1 + e) - (p - front.added) = M - e by omega,
              show p - front.added = p - (front.added / 2 + 1 + M) by omega]
      rw [sweptAfter, max_eq_left reached, taken, ← Multiset.coe_add, Multiset.coe_replicate,
          add_assoc]
  · next beyond =>
      rw [start _ he, List.take_append_of_le_length (by simp; omega), List.take_replicate,
          min_eq_left (by omega), Multiset.coe_replicate, add_comm]

end RationalSpline.Spline
