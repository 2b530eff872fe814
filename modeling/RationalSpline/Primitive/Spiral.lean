/-
  RationalSpline.Primitive.Spiral
  ───────────────────────────────
  SPIRALS AND HELICES.

  A spiral winds around a straight axis or around a rail curve.  Equally spaced
  samples of it are interpolated by a cubic curve.  A radius that is not given is
  the distance of the radius point from the axis or the rail.
-/
import RationalSpline.Curve.Frames
import RationalSpline.Curve.Length
import RationalSpline.Interpolation.Curve
import RationalSpline.Space.Plane

namespace RationalSpline

/-! ## §1. Failures. -/

/-- Requests that describe no spiral. -/
inductive SpiralCause (α : Type) where
  | zeroAxis
  | turnCountMissing
  | turnCountNotPositive (turns : α)
  | turnCountTooLarge
  | radii (start finish : α)
  | pointsPerTurn (count : Nat)
  | railDomain (lower upper t0 t1 : α)
  | pitchRequired
  | railWithoutLength
  | radiusPointOnRail
  deriving Repr

/-- The step of a construction in which a failure arose. -/
inductive Stage where
  | ellipseForm
  | radialPlane
  | railLength
  | railFrames
  | spiralFit
  deriving Repr, DecidableEq

/-- Why a primitive has no curve. -/
inductive PrimitiveFailure (α : Type) where
  /-- The request itself. -/
  | request (cause : SpiralCause α)
  /-- A failure inside a step. -/
  | during (stage : Stage) (cause : Failure α)
  deriving Repr

section Wording

variable {α : Type} (text : α → String)

/-- The text of a request that describes no spiral. -/
def SpiralCause.message : SpiralCause α → String
  | .zeroAxis => "spiral axis direction is zero"
  | .turnCountMissing => "spiral turn count is not set"
  | .turnCountNotPositive turns => s!"turn count must be positive, got {text turns}"
  | .turnCountTooLarge => "turn count is too large"
  | .radii start finish =>
      s!"spiral radii {text start} and {text finish} must not be negative or both zero"
  | .pointsPerTurn count => s!"at least 4 points per turn are required, got {count}"
  | .railDomain lower upper t0 t1 =>
      s!"rail sub domain ({text lower}, {text upper}) is outside ({text t0}, {text t1})"
  | .pitchRequired => "either a turn count or a positive pitch is required"
  | .railWithoutLength => "rail has no length"
  | .radiusPointOnRail => "radius point lies on the rail"

/-- What a step says before the text of a failure inside it. -/
def Stage.message? : Stage → Option String
  | .ellipseForm => some "ellipse nurbs form"
  | .radialPlane => some "radius point lies on the spiral axis"
  | .railLength => none
  | .railFrames => some "failed to transport frames along the rail"
  | .spiralFit => some "failed to fit the spiral"

/-- The text of a failure, from the outermost step to the cause. -/
def PrimitiveFailure.message? : PrimitiveFailure α → Option String
  | .request cause => some (cause.message text)
  | .during stage cause =>
      (cause.message? text).map fun inner =>
        match stage.message? with
        | some outer => s!"{outer}: {inner}"
        | none => inner

end Wording

/-! ## §2. Spirals. -/

/-- A spiral, up to the axis or the rail that it winds around. -/
structure Spiral (α : Type) where
  /-- The direction of the first sample, and the default radius. -/
  radiusPoint : Vec3 α
  /-- The way along the axis in one turn. -/
  pitch : α
  /-- The number of turns. -/
  turns : Option α := none
  /-- The radius at the start. -/
  startRadius : Option α := none
  /-- The radius at the end. -/
  endRadius : Option α := none
  /-- The number of samples in one turn. -/
  pointsPerTurn : Nat := 12
  deriving Repr, DecidableEq

namespace Spiral

variable {α ω : Type} [Scalar α] [Precision α] [Analytic α]

/-- A failure inside a step of the construction. -/
def within {β : Type} (stage : Stage) : Except (Failure α) β → Except (PrimitiveFailure α) β
  | .ok b => .ok b
  | .error e => .error (.during stage e)

/-- A request that describes no spiral. -/
def refuse {β : Type} (cause : SpiralCause α) : Except (PrimitiveFailure α) β :=
  .error (.request cause)

/-- The radii at the start and at the end. -/
def radii (s : Spiral α) (distance : α) : Except (PrimitiveFailure α) (α × α) :=
  let r0 := s.startRadius.getD distance
  let r1 := s.endRadius.getD r0
  if 0 ≤ r0 ∧ 0 ≤ r1 ∧ (0 < r0 ∨ 0 < r1) then .ok (r0, r1) else refuse (.radii r0 r1)

/-- The number of steps between the samples, at least four. -/
def stepCount (s : Spiral α) (turns : α) : Except (PrimitiveFailure α) Nat :=
  if s.pointsPerTurn < 4 then refuse (.pointsPerTurn s.pointsPerTurn)
  else
    match Analytic.ceil? (turns * (s.pointsPerTurn : α)) with
    | none => refuse .turnCountTooLarge
    | some count => .ok (max count 4)

/-- Equally spaced numbers from 0 to 1. -/
def samples (s : Spiral α) (turns : α) : Except (PrimitiveFailure α) (List α) := do
  let steps ← s.stepCount turns
  within .spiralFit (checkStorage steps)
  let inverse : α := 1 / (steps : α)
  .ok ((List.range (steps + 1)).map fun (i : Nat) => (i : α) * inverse)

/-- The cubic curve through the samples. -/
def fit (points : List (Vec3 α)) : Except (PrimitiveFailure α) (Curve α) :=
  within .spiralFit (Curve.interpolate (points.map Vec3.toPoint) 3 .chordal)

/-- The turns, which must be positive. -/
def checkTurns (turns : α) : Except (PrimitiveFailure α) Unit :=
  if 0 < turns then .ok () else refuse (.turnCountNotPositive turns)

/-- The spiral around the line through `start` along `direction`. -/
def aroundAxis (s : Spiral α) (start direction : Vec3 α) :
    Except (PrimitiveFailure α) (Curve α) := do
  let some axis := direction.normalize? | refuse .zeroAxis
  let some turns := s.turns | refuse .turnCountMissing
  checkTurns turns
  -- the direction of the first sample, seen from the axis
  let offset := s.radiusPoint.sub start
  let radial := offset.sub (axis.scale (axis.dot offset))
  let plane ← within .radialPlane (Plane.ofDirections start radial (axis.cross radial))
  let (r0, r1) ← s.radii radial.norm
  let samples ← s.samples turns
  fit (samples.map fun u =>
    let angle := Analytic.tau * turns * u
    let radius := r0 + (r1 - r0) * u
    (plane.pointAt (radius * Analytic.cos angle) (radius * Analytic.sin angle)).add
      (axis.scale (s.pitch * turns * u)))

/-- The turns along a rail: those given, or its length over the pitch. -/
def railTurns [Quadrature α ω] [Scalar ω] [Precision ω] (s : Spiral α) (rail : Curve α)
    (lower upper : α) : Except (PrimitiveFailure α) α :=
  match s.turns with
  | some turns => .ok turns
  | none =>
      if 0 < s.pitch then do
        let length ← within .railLength (rail.lengthBetween lower upper)
        if 0 < length then .ok (length / s.pitch) else refuse .railWithoutLength
      else refuse .pitchRequired

/-- The spiral around the part of a rail curve from `lower` to `upper`. -/
def alongRail [Quadrature α ω] [Scalar ω] [Precision ω] (s : Spiral α) (rail : Curve α)
    (lower upper : α) : Except (PrimitiveFailure α) (Curve α) := do
  let (t0, t1) := rail.domain
  if ¬(t0 ≤ lower ∧ lower < upper ∧ upper ≤ t1) then
    refuse (.railDomain lower upper t0 t1)
  else
    let turns ← s.railTurns rail lower upper
    checkTurns turns
    let samples ← s.samples turns
    let frames ← within .railFrames
      (rail.frames (samples.map fun u => lower + (upper - lower) * u))
    let (x, y) := (frames.headD ⟨.zero, .zero, .zero, .zero⟩).project s.radiusPoint
    let distance := Analytic.sqrt (x * x + y * y)
    if ¬Precision.epsilon < distance then refuse .radiusPointOnRail
    else
      -- the first sample lies in the direction of the radius point
      let phase := Analytic.atan2 y x
      let (r0, r1) ← s.radii distance
      fit ((samples.zip frames).map fun (u, frame) =>
        let angle := phase + Analytic.tau * turns * u
        let radius := r0 + (r1 - r0) * u
        frame.pointAt (radius * Analytic.cos angle) (radius * Analytic.sin angle))

end Spiral

end RationalSpline
