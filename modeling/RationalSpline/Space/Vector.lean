/-
  RationalSpline.Space.Vector
  ───────────────────────────
  VECTORS OF SPACE.

  The inner product, the cross product, normalization and rotation about an axis.
-/
import RationalSpline.Point

namespace RationalSpline

/-- A vector or a point of three-dimensional space. -/
structure Vec3 (α : Type) where
  /-- First coordinate. -/
  x : α
  /-- Second coordinate. -/
  y : α
  /-- Third coordinate. -/
  z : α
  deriving Repr, DecidableEq

namespace Vec3

/-- The vector in other numbers. -/
def map {α β : Type} (f : α → β) (v : Vec3 α) : Vec3 β := ⟨f v.x, f v.y, f v.z⟩

variable {α : Type} [Scalar α]

/-! ## §1. Linear operations. -/

/-- The origin. -/
def zero : Vec3 α := ⟨0, 0, 0⟩

/-- The axis directions. -/
def axes : List (Vec3 α) := [⟨1, 0, 0⟩, ⟨0, 1, 0⟩, ⟨0, 0, 1⟩]

/-- Sum. -/
def add (v w : Vec3 α) : Vec3 α := ⟨v.x + w.x, v.y + w.y, v.z + w.z⟩

/-- Difference. -/
def sub (v w : Vec3 α) : Vec3 α := ⟨v.x - w.x, v.y - w.y, v.z - w.z⟩

/-- Product with a number. -/
def scale (v : Vec3 α) (a : α) : Vec3 α := ⟨v.x * a, v.y * a, v.z * a⟩

/-- Quotient by a number. -/
def divide (v : Vec3 α) (a : α) : Vec3 α := ⟨v.x / a, v.y / a, v.z / a⟩

/-- The first three coordinates of a point. -/
def ofPoint (p : Point α) : Vec3 α := ⟨p.getD 0 0, p.getD 1 0, p.getD 2 0⟩

/-- The coordinates as a point. -/
def toPoint (v : Vec3 α) : Point α := [v.x, v.y, v.z]

/-! ## §2. Products. -/

/-- The inner product. -/
def dot (v w : Vec3 α) : α := v.x * w.x + v.y * w.y + v.z * w.z

/-- The cross product. -/
def cross (v w : Vec3 α) : Vec3 α :=
  ⟨v.y * w.z - v.z * w.y, v.z * w.x - v.x * w.z, v.x * w.y - v.y * w.x⟩

variable [Analytic α]

/-- Euclidean length. -/
def norm (v : Vec3 α) : α := Analytic.sqrt (dot v v)

/-- The direction of a vector. -/
def normalize (v : Vec3 α) : Vec3 α := v.divide v.norm

/-- The direction of a vector that is longer than machine precision. -/
def normalize? [Precision α] (v : Vec3 α) : Option (Vec3 α) :=
  if v.norm ≤ Precision.epsilon then none else some v.normalize

/-! ## §3. Rotation. -/

/-- The vector turned by `angle` about the unit vector `axis`. -/
def rotate (axis : Vec3 α) (angle : α) (v : Vec3 α) : Vec3 α :=
  if angle == 0 then v
  else
    let s := Analytic.sin angle
    let c := Analytic.cos angle
    let m := 1 - c
    -- the images of the three axis directions
    let xx := axis.x * axis.x
    let yy := axis.y * axis.y
    let zz := axis.z * axis.z
    let first : Vec3 α :=
      ⟨xx + (1 - xx) * c, axis.x * axis.y * m + axis.z * s, axis.x * axis.z * m - axis.y * s⟩
    let second : Vec3 α :=
      ⟨axis.x * axis.y * m - axis.z * s, yy + (1 - yy) * c, axis.y * axis.z * m + axis.x * s⟩
    let third : Vec3 α :=
      ⟨axis.x * axis.z * m + axis.y * s, axis.y * axis.z * m - axis.x * s, zz + (1 - zz) * c⟩
    (first.scale v.x |>.add (second.scale v.y)).add (third.scale v.z)

end Vec3

end RationalSpline
