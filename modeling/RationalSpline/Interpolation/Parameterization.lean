/-
  RationalSpline.Interpolation.Parameterization
  ─────────────────────────────────────────────
  PARAMETERS OF POINTS IN A ROW.

  Each style measures the step from a point to the next; the parameters are the
  partial sums of the steps over their total.
-/
import RationalSpline.KnotVector.Basic
import RationalSpline.Point

namespace RationalSpline

/-- How parameters are spread over points. -/
inductive Parameterization where
  /-- All steps are equal. -/
  | uniform
  /-- A step is the distance of its points. -/
  | chordal
  /-- A step is the square root of the distance of its points. -/
  | centripetal
  deriving Repr, DecidableEq

namespace Parameterization

variable {α : Type} [Scalar α]

/-- The sums of more and more steps after `sum`, over the total. -/
def partialSums (total sum : α) : List α → List α
  | [] => []
  | s :: rest => (sum + s) / total :: partialSums total (sum + s) rest

@[simp] theorem length_partialSums (total sum : α) (steps : List α) :
    (partialSums total sum steps).length = steps.length := by
  induction steps generalizing sum with
  | nil => rfl
  | cons s rest ih => simp [partialSums, ih]

variable [Analytic α]

/-- The step from one point to the next. -/
def step (style : Parameterization) (p q : Point α) : α :=
  match style with
  | .uniform => 1
  | .chordal => Analytic.pow (Point.distance p q) 1
  | .centripetal => Analytic.pow (Point.distance p q) Scalar.half

/-- The steps between neighbouring points. -/
def steps (style : Parameterization) (points : List (Point α)) : List α :=
  (Sequence.neighbours points).map fun (p, q) => style.step p q

/-- Parameters from 0 to 1, one for each point; there are none when no point
differs from the next. -/
def parameters? (style : Parameterization) (points : List (Point α)) : Option (List α) :=
  let steps := style.steps points
  let total := steps.foldl (· + ·) 0
  if total ≤ 0 then none
  else some (0 :: partialSums total 0 steps.dropLast ++ if 1 < points.length then [1] else [])

theorem length_parameters? {style : Parameterization} {points : List (Point α)}
    {parameters : List α} (h : style.parameters? points = some parameters)
    (nonempty : points ≠ []) : parameters.length = points.length := by
  have positive := List.length_pos_iff.2 nonempty
  simp only [parameters?] at h
  split at h
  · simp at h
  · obtain rfl := Option.some.inj h
    by_cases more : 1 < points.length <;> simp [steps, more] <;> omega

/-- The steps of the style exist: they are all equal, or neighbouring points have the
same number of coordinates. -/
def hasSteps (style : Parameterization) (points : List (Point α)) : Bool :=
  style == .uniform
    || (Sequence.neighbours points).all fun (p, q) => p.length == q.length

/-- The parameters, if the steps exist. -/
def checked (style : Parameterization) (points : List (Point α)) :
    Option (Option (List α)) :=
  if style.hasSteps points then some (style.parameters? points) else none

end Parameterization

end RationalSpline
