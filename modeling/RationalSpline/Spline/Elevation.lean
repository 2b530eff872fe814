/-
  RationalSpline.Spline.Elevation
  ───────────────────────────────
  DEGREE ELEVATION.

  A clamped spline is raised segment by segment, from left to right.

    • `levels`       — the knot at the right end of the segment is inserted until the
                       segment is a Bézier polygon; the other edge of the same
                       triangle begins the next segment.
    • `raisePolygon` — the polygon is raised to the new degree with fixed shares.
    • `sweeps`       — the knot at the left end is removed again, as often as it was
                       inserted, on both sides of it: an entry is extrapolated from
                       the entry after it, and later sweeps reach further.

  Every distinct knot is repeated once more for each degree gained.
-/
import RationalSpline.Spline.Basic
import RationalSpline.KnotVector.Multiplicity
import RationalSpline.Binomial

namespace RationalSpline.Spline

variable {α : Type} [Scalar α]

/-! ## §1. Bézier polygons. -/

/-- The share of control point `j` of degree `p` in control point `i` of degree
`p + inc`, for `i` in the first half. -/
def shareBelow (p inc i j : Nat) : α :=
  1 / binomial (p + inc) i * binomial p j * binomial inc (i - j)

/-- The share of control point `j` of degree `p` in control point `i` of degree
`p + inc`; seen from the other end the shares are the same. -/
def share (p inc i j : Nat) : α :=
  if 2 * i ≤ p + inc then shareBelow p inc i j else shareBelow p inc (p + inc - i) (p - j)

/-- For each control point of degree `p + inc`, the first control point of degree `p`
that has a share in it, and the shares from there on. -/
def shareRows (p inc : Nat) : List (Nat × List α) :=
  (List.range (p + inc + 1)).map fun i =>
    (i - inc, (List.range' (i - inc) (min p i + 1 - (i - inc))).map (share p inc i))

/-- The Bézier polygon in a higher degree. -/
def raisePolygon (dimension : Nat) (rows : List (Nat × List α)) (polygon : List (Point α)) :
    List (Point α) :=
  rows.map fun (first, shares) => Point.combine dimension shares (polygon.drop first)

@[simp] theorem length_shareRows (p inc : Nat) :
    (shareRows p inc : List (Nat × List α)).length = p + inc + 1 := by
  simp [shareRows]

@[simp] theorem length_raisePolygon (dimension : Nat) (rows : List (Nat × List α))
    (polygon : List (Point α)) :
    (raisePolygon dimension rows polygon).length = rows.length := by
  simp [raisePolygon]

/-! ## §2. The triangle of an inserted knot. -/

/-- Combine neighbouring points, each pair with its own coefficient. -/
def blendPairs : List α → List (Point α) → List (Point α)
  | a :: as, p :: q :: rest => Point.blend a p q :: blendPairs as (q :: rest)
  | _, _ => []

/-- A row of points and the rows that follow from it, each one shorter. -/
def levels (coefficients : List α) : Nat → List (Point α) → List (List (Point α))
  | 0, row => [row]
  | n + 1, row => row :: levels coefficients n (blendPairs coefficients row)

@[simp] theorem length_levels (coefficients : List α) (n : Nat) (row : List (Point α)) :
    (levels coefficients n row).length = n + 1 := by
  induction n generalizing row with
  | zero => rfl
  | succ n ih => simp [levels, ih]

/-! ## §3. Sweeps that remove a knot. -/

/-- Extrapolate entries, the last first: each is combined with what the entry after it
has become.  Entries that no coefficient reaches stay. -/
def sweep : List α → List (Point α) → List (Point α)
  | a :: as, x :: xs =>
      let rest := sweep as xs
      Point.blend a (rest.headD []) x :: rest
  | _, xs => xs

/-- Several sweeps, each with its own coefficients. -/
def sweeps (coefficients : Nat → List α) : Nat → List (Point α) → List (Point α)
  | 0, xs => xs
  | n + 1, xs => sweep (coefficients n) (sweeps coefficients n xs)

@[simp] theorem length_sweep (coefficients : List α) (xs : List (Point α)) :
    (sweep coefficients xs).length = xs.length := by
  induction coefficients generalizing xs with
  | nil => cases xs <;> rfl
  | cons a as ih =>
      cases xs with
      | nil => rfl
      | cons x xs => simp [sweep, ih]

@[simp] theorem length_sweeps (coefficients : Nat → List α) (n : Nat) (xs : List (Point α)) :
    (sweeps coefficients n xs).length = xs.length := by
  induction n with
  | zero => rfl
  | succ n ih => simp [sweeps, ih]

/-! ## §4. From segment to segment. -/

/-- What is known where a segment begins. -/
structure Front (α : Type) where
  /-- The knot at which it begins. -/
  knot : α
  /-- How many copies the knot had to be given to reach full multiplicity. -/
  added : Nat
  /-- The raised knots before it, the nearest first. -/
  knotsBefore : List α
  /-- The raised control points so far, the nearest first. -/
  pointsBefore : List (Point α)
  /-- The control points of the segment, whose first knot has full multiplicity. -/
  segment : List (Point α)
  /-- The control points after them. -/
  pointsAfter : List (Point α)

/-- The position of the raised knot `d` places before the front, seen from `next`
with the front at 1; it removes the front from the points before it. -/
def ratioBefore (front : Front α) (next : α) (d : Nat) : α :=
  let k := front.knotsBefore.getD d 0
  (next - k) / (front.knot - k)

/-- The length from the raised knot `d` places before the front up to `next`, in units
of the segment; it removes the front from the points after it.  Within `reach` places
the nearest knot stands for all. -/
def ratioAfter (front : Front α) (next : α) (reach d : Nat) : α :=
  let k := front.knotsBefore.getD (if d + 1 < reach then 0 else d) 0
  (next - k) / (next - front.knot)

/-- The points before the front, without the copies it was given. -/
def mendBefore (front : Front α) (next : α) : List (Point α) :=
  let shift := (front.added + 1) / 2
  sweeps (fun n => (List.range (n + 1)).map fun d => ratioBefore front next (shift + d))
    (front.added / 2) front.pointsBefore

/-- The raised points of the segment, without the copies that the front was given. -/
def mendAfter (front : Front α) (next : α) (reach : Nat) (raised : List (Point α)) :
    List (Point α) :=
  sweeps (fun n => ((List.range (n + 1)).map (ratioAfter front next reach)).reverse)
    ((front.added + 1) / 2 - 1) (raised.drop (front.added / 2 + 1))

/-- The raised control points of the segments that end at the given knots. -/
def raiseSegments (p inc dimension : Nat) (rows : List (Nat × List α)) :
    List (KnotMultiplicity α) → Front α → List (Point α)
  | [], front => front.pointsBefore.reverse
  | m :: later, front =>
      let added := p - m.multiplicity
      let beyond := (later.flatMap KnotMultiplicity.occurrences).take added
      let triangle := levels (beyond.map fun k => (m.knot - front.knot) / (k - front.knot))
        added (front.segment.drop m.multiplicity)
      let polygon := front.segment.take m.multiplicity ++ triangle.filterMap List.head?
      let copies := p + inc - front.added
      let mended := mendAfter front m.knot copies (raisePolygon dimension rows polygon)
      -- points in the reach of the knot at the right end are left to the next segment
      let kept := mended.take (p + inc - front.added / 2 - (added + 1) / 2)
      raiseSegments p inc dimension rows later
        { knot := m.knot
          added := added
          knotsBefore := List.replicate copies front.knot ++ front.knotsBefore
          pointsBefore := kept.reverse ++ mendBefore front m.knot
          segment :=
            (triangle.filterMap List.getLast?).reverse ++ front.pointsAfter.take m.multiplicity
          pointsAfter := front.pointsAfter.drop m.multiplicity }

/-! ## §5. The raised spline. -/

/-- The distinct knots with their multiplicities.  Of equal knots the last stands for
all, and the first where the vector begins: the two zeros are equal but differ. -/
def breaks (U : KnotVector α) : List (KnotMultiplicity α) :=
  match (KnotVector.runs U.values.reverse).reverse with
  | [] => []
  | m :: later => ⟨U.knot 0, m.multiplicity⟩ :: later

/-- Every distinct knot `inc` times more. -/
def raisedKnots (U : KnotVector α) (inc : Nat) : KnotVector α :=
  ⟨(breaks U).flatMap fun m => List.replicate (m.multiplicity + inc) m.knot⟩

/-- The control points on the raised knots. -/
def raisedPoints (S : Spline α) (inc : Nat) : List (Point α) :=
  match breaks S.knots with
  | [] => []
  | m :: later =>
      raiseSegments S.degree inc (S.points.headD []).length (shareRows S.degree inc) later
        { knot := m.knot
          added := 0
          knotsBefore := [m.knot]
          pointsBefore := S.points.take 1
          segment := S.points.take (S.degree + 1)
          pointsAfter := S.points.drop (S.degree + 1) }

/-- The clamped spline in `inc` degrees more. -/
def elevate (S : Spline α) (inc : Nat) : Spline α :=
  { degree := S.degree + inc
    knots := raisedKnots S.knots inc
    points := S.raisedPoints inc }

/-- There are `inc` knots more for each distinct one. -/
theorem size_raisedKnots (U : KnotVector α) (inc : Nat) :
    (raisedKnots U inc).size = U.size + inc * (breaks U).length := by
  have raised : ∀ ms : List (KnotMultiplicity α),
      (ms.flatMap fun m => List.replicate (m.multiplicity + inc) m.knot).length
        = (ms.flatMap KnotMultiplicity.occurrences).length + inc * ms.length := by
    intro ms
    induction ms with
    | nil => rfl
    | cons m rest ih =>
        simp only [List.flatMap_cons, List.length_append, ih, List.length_cons,
          List.length_replicate, KnotMultiplicity.length_occurrences, Nat.mul_add]
        omega
  have counted : ((breaks U).flatMap KnotMultiplicity.occurrences).length = U.size := by
    have all : ((KnotVector.runs U.values.reverse).reverse.flatMap
        KnotMultiplicity.occurrences).length = U.size := by
      have runs := KnotVector.length_flatMap_runs U.values.reverse
      simp only [List.length_flatMap, List.map_reverse, List.sum_reverse] at runs ⊢
      simpa [KnotVector.size] using runs
    unfold breaks
    split
    · next none => simpa [none] using all
    · next m later some =>
        simpa [some, KnotMultiplicity.occurrences] using all
  simp only [KnotVector.size, raisedKnots, raised]
  rw [counted, KnotVector.size]

end RationalSpline.Spline
