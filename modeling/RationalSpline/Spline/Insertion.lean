/-
  RationalSpline.Spline.Insertion
  ───────────────────────────────
  KNOT INSERTION.

  Inserting `u` once replaces the control points between those that end before
  `u` and those that start after it by one round of affine combinations at `u`.
  Several copies at once are a triangle of such rounds, each on the points of the
  last and on the knots before the insertion.
-/
import RationalSpline.Spline.Basic

namespace RationalSpline.Spline

variable {α : Type} [Scalar α]

/-! ## §1. One copy. -/

/-- The index of the last knot not above `u`. -/
def place (S : Spline α) (u : α) : Nat := (S.knots.floor? u).getD S.degree

/-- The spline with `u` as one more knot. -/
def insert (S : Spline α) (u : α) : Spline α :=
  let p := S.degree
  let k := S.place u
  let s := S.knots.count u
  { degree := p
    knots := ⟨S.knots.values.take (k + 1) ++ u :: S.knots.values.drop (k + 1)⟩
    points :=
      -- those before, the affine combinations in between, those after
      S.points.take (k - p + 1)
        ++ round S.knots u (k - p + 1) (k + 1) ((S.points.drop (k - p)).take (p - s + 1))
        ++ S.points.drop (k - s) }

/-- Inserting `u` so many times touches only knots and control points that exist. -/
def admits (S : Spline α) (u : α) (times : Nat) : Bool :=
  let k := S.place u
  let s := S.knots.count u
  decide (S.degree ≤ k ∧ s ≤ k ∧ k - s < S.points.length ∧ s + times ≤ S.degree)

theorem size_knots_insert (S : Spline α) (u : α) :
    (S.insert u).knots.size = S.knots.size + 1 := by
  simp only [insert, KnotVector.size, List.length_append, List.length_take, List.length_cons,
    List.length_drop]
  omega

/-! ## §2. Several copies. -/

/-- So many rounds at `v` on a row of points.  The first point of a row and its last
one are done; the rounds go on between them, one knot further at the low end. -/
def triangle (U : KnotVector α) (v : α) (hi : Nat) :
    Nat → Nat → List (Point α) → List (Point α)
  | _, 0, row => row
  | lo, times + 1, row =>
      row.take 1 ++ triangle U v hi (lo + 1) times (round U v lo hi row)
        ++ row.drop (row.length - 1)

theorem length_triangle (U : KnotVector α) (v : α) (hi lo : Nat) {times : Nat}
    {row : List (Point α)} (h : times < row.length) :
    (triangle U v hi lo times row).length = row.length + times := by
  induction times generalizing lo row with
  | zero => rfl
  | succ times ih =>
      have inner := ih (lo + 1) (show times < (round U v lo hi row).length by
        rw [length_round]
        omega)
      rw [length_round] at inner
      simp only [triangle, List.length_append, List.length_take, List.length_drop, inner]
      omega

/-- The spline with several copies of `u` as further knots, computed at once. -/
def insertCopies (S : Spline α) (u : α) (times : Nat) : Spline α :=
  let p := S.degree
  let k := S.place u
  let s := S.knots.count u
  { degree := p
    knots :=
      ⟨S.knots.values.take (k + 1) ++ List.replicate times u ++ S.knots.values.drop (k + 1)⟩
    points :=
      S.points.take (k - p)
        ++ triangle S.knots u (k + 1) (k - p + 1) times ((S.points.drop (k - p)).take (p - s + 1))
        ++ S.points.drop (k - s + 1) }

/-- The spline with `u` inserted several times, where that is defined. -/
def insertTimes? (S : Spline α) (u : α) (times : Nat) : Option (Spline α) :=
  if times = 0 then some S
  else if S.admits u times then some (S.insertCopies u times)
  else none

/-- The spline with `u` inserted again and again. -/
def insertTimes (S : Spline α) (u : α) (times : Nat) : Spline α :=
  Nat.repeat (fun S => S.insert u) times S

end RationalSpline.Spline
