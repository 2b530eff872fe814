/-
  RationalSpline.Curve.Frames
  ───────────────────────────
  FRAMES ALONG A SPACE CURVE.

  The first normal is orthogonal to the first tangent and to the coordinate axis
  most orthogonal to it.  From each parameter to the next, the normal turns by the
  rotation that takes one tangent to the next; tangents that are nearly parallel
  leave it unchanged.
-/
import RationalSpline.Curve.Evaluation
import RationalSpline.Space.Frame
import RationalSpline.Failure

namespace RationalSpline

variable {α : Type} [Scalar α] [Precision α] [Analytic α]

/-! ## §1. Transport of a normal. -/

/-- The coordinate axis most orthogonal to a direction, the first of several. -/
def seedAxis (tangent : Vec3 α) : Vec3 α :=
  Vec3.axes.tail.foldl
    (fun best axis =>
      if Scalar.abs (tangent.dot axis) < Scalar.abs (tangent.dot best) then axis else best)
    (Vec3.axes.headD .zero)

/-- A direction orthogonal to a tangent. -/
def firstNormal (tangent : Vec3 α) : Vec3 α :=
  (tangent.cross (tangent.cross (seedAxis tangent)).normalize).normalize

/-- The normal carried from one tangent to the next. -/
def carryNormal (tangent next normal : Vec3 α) : Vec3 α :=
  let axis := tangent.cross next
  -- tangents that nearly agree determine no axis
  if Precision.epsilon < axis.norm then
    Vec3.rotate axis.normalize (Analytic.acos (Scalar.clamp (-1) 1 (tangent.dot next))) normal
  else normal

/-- The normals at a tangent and at those after it. -/
def carryNormals (tangent normal : Vec3 α) : List (Vec3 α) → List (Vec3 α)
  | [] => [normal]
  | next :: rest => normal :: carryNormals next (carryNormal tangent next normal) rest

@[simp] theorem length_carryNormals (tangent normal : Vec3 α) (tangents : List (Vec3 α)) :
    (carryNormals tangent normal tangents).length = tangents.length + 1 := by
  induction tangents generalizing tangent normal with
  | nil => rfl
  | cons next rest ih => simp [carryNormals, ih]

namespace Curve

/-! ## §2. Frames. -/

/-- The unit tangents at several parameters. -/
def unitTangents (c : Curve α) : List α → Except (Failure α) (List (Vec3 α))
  | [] => .ok []
  | t :: ts =>
      match c.tangentAt? t with
      | none => .error .undefined
      | some tangent =>
          match (Vec3.ofPoint tangent).normalize? with
          | none => .error (.outOfDomain (.vanishingTangent t))
          | some v => (c.unitTangents ts).map (v :: ·)

/-- The frame at a parameter with a given tangent and normal. -/
def frameOf (c : Curve α) (t : α) (tangent normal : Vec3 α) : Frame α :=
  ⟨Vec3.ofPoint (c.pointAt t), tangent, normal, (tangent.cross normal).normalize⟩

/-- The frames at several parameters of a space curve. -/
def frames (c : Curve α) (parameters : List α) : Except (Failure α) (List (Frame α)) :=
  if c.dimension ≠ 3 then .error (.invalidShape (.framesDimension c.dimension))
  else
    match c.unitTangents parameters with
    | .error e => .error e
    | .ok [] => .ok []
    | .ok (first :: rest) =>
        let tangents := first :: rest
        let normals := carryNormals first (firstNormal first) rest
        .ok ((parameters.zip (tangents.zip normals)).map
          fun (t, tangent, normal) => c.frameOf t tangent normal)

end Curve

end RationalSpline
