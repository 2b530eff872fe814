/-
  RationalSpline.ControlPoints
  ────────────────────────────
  THE CONTROL POLYGON.

  The constructor carries the rational flag, so a polygon without weights cannot
  store one.  Insertion, removal and elevation act on the stored vectors alike,
  whichever constructor holds them; only reading a location or a weight differs.
-/
import RationalSpline.Checked
import RationalSpline.Point

namespace RationalSpline

/-- What a stored control vector means. -/
inductive PointStyle where
  /-- The coordinates of the point. -/
  | notRational
  /-- The coordinates times the weight, then the weight. -/
  | homogeneousRational
  deriving Repr, DecidableEq

/-- The name of a style. -/
def PointStyle.name : PointStyle → String
  | .notRational => "NotRational"
  | .homogeneousRational => "HomogeneousRational"

/-- The control points of a curve. -/
inductive ControlPoints (α : Type) where
  /-- One coordinate per dimension. -/
  | cartesian (points : List (Point α))
  /-- One more coordinate than the dimension, the weight in the last place. -/
  | homogeneous (points : List (Point α))
  deriving Repr, DecidableEq

namespace ControlPoints

variable {α : Type}

/-! ## §1. The stored vectors. -/

/-- The vectors as they are stored. -/
def vectors : ControlPoints α → List (Point α)
  | cartesian points => points
  | homogeneous points => points

/-- Other vectors with the same meaning. -/
def withVectors : ControlPoints α → List (Point α) → ControlPoints α
  | cartesian _, points => cartesian points
  | homogeneous _, points => homogeneous points

/-- The number of control points. -/
def length (P : ControlPoints α) : Nat := P.vectors.length

/-- Whether there are no control points. -/
def isEmpty (P : ControlPoints α) : Bool := P.vectors.isEmpty

/-- Whether the points carry weights. -/
def isRational : ControlPoints α → Bool
  | cartesian _ => false
  | homogeneous _ => true

/-- What a stored vector means. -/
def style (P : ControlPoints α) : PointStyle :=
  if P.isRational then .homogeneousRational else .notRational

/-- The polygon in the opposite direction. -/
def reverse (P : ControlPoints α) : ControlPoints α := P.withVectors P.vectors.reverse

/-- The polygon with one stored vector replaced. -/
def set (P : ControlPoints α) (i : Nat) (p : Point α) : ControlPoints α :=
  P.withVectors (P.vectors.set i p)

/-- The polygon in other numbers. -/
def map {β : Type} (f : α → β) : ControlPoints α → ControlPoints β
  | cartesian points => cartesian (points.map (List.map f))
  | homogeneous points => homogeneous (points.map (List.map f))

@[simp] theorem vectors_withVectors (P : ControlPoints α) (points : List (Point α)) :
    (P.withVectors points).vectors = points := by
  cases P <;> rfl

@[simp] theorem isRational_withVectors (P : ControlPoints α) (points : List (Point α)) :
    (P.withVectors points).isRational = P.isRational := by
  cases P <;> rfl

@[simp] theorem length_withVectors (P : ControlPoints α) (points : List (Point α)) :
    (P.withVectors points).length = points.length := by
  simp [length]

@[simp] theorem length_reverse (P : ControlPoints α) : P.reverse.length = P.length := by
  simp [reverse, length]

@[simp] theorem isRational_reverse (P : ControlPoints α) :
    P.reverse.isRational = P.isRational := by
  simp [reverse]

@[simp] theorem length_set (P : ControlPoints α) (i : Nat) (p : Point α) :
    (P.set i p).length = P.length := by
  simp [set, length]

@[simp] theorem isRational_set (P : ControlPoints α) (i : Nat) (p : Point α) :
    (P.set i p).isRational = P.isRational := by
  simp [set]

@[simp] theorem length_map {β : Type} (f : α → β) (P : ControlPoints α) :
    (P.map f).length = P.length := by
  cases P <;> simp [map, length, vectors]

/-! ## §2. Locations and weights. -/

variable [Scalar α]

/-- The weight of a control point; a point without one weighs 1. -/
def weight (P : ControlPoints α) (i : Nat) : α :=
  match P with
  | cartesian _ => 1
  | homogeneous points => Point.weight (points.getD i [])

theorem weight_of_isRational {P : ControlPoints α} (h : P.isRational = true) (i : Nat) :
    P.weight i = Point.weight (P.vectors.getD i []) := by
  cases P with
  | cartesian => simp [isRational] at h
  | homogeneous => rfl

theorem weight_of_not_isRational {P : ControlPoints α} (h : P.isRational = false) (i : Nat) :
    P.weight i = 1 := by
  cases P with
  | cartesian => rfl
  | homogeneous => simp [isRational] at h

/-- All weights, in order. -/
def weights (P : ControlPoints α) : List α := (List.range P.length).map P.weight

/-- The location of a control point. -/
def location (P : ControlPoints α) (i : Nat) : Point α :=
  match P with
  | cartesian points => points.getD i []
  | homogeneous points => Point.dehomogenize (points.getD i [])

theorem location_of_isRational {P : ControlPoints α} (h : P.isRational = true) (i : Nat) :
    P.location i = Point.dehomogenize (P.vectors.getD i []) := by
  cases P with
  | cartesian => simp [isRational] at h
  | homogeneous => rfl

/-- All locations, in order. -/
def locations (P : ControlPoints α) : List (Point α) := (List.range P.length).map P.location

/-- The homogeneous form of a control point. -/
def lifted (P : ControlPoints α) (i : Nat) : Point α :=
  match P with
  | cartesian points => points.getD i [] ++ [1]
  | homogeneous points => points.getD i []

/-- The same points with weights, all of them 1 where there were none. -/
def toRational : ControlPoints α → ControlPoints α
  | cartesian points => homogeneous (points.map (· ++ [1]))
  | homogeneous points => homogeneous points

@[simp] theorem length_weights (P : ControlPoints α) : P.weights.length = P.length := by
  simp [weights]

theorem forall_mem_weights {P : ControlPoints α} {Q : α → Prop} :
    (∀ w ∈ P.weights, Q w) ↔ ∀ i < P.length, Q (P.weight i) := by
  simp [weights]

@[simp] theorem length_locations (P : ControlPoints α) : P.locations.length = P.length := by
  simp [locations]

@[simp] theorem isRational_toRational (P : ControlPoints α) :
    P.toRational.isRational = true := by
  cases P <;> rfl

@[simp] theorem length_toRational (P : ControlPoints α) : P.toRational.length = P.length := by
  cases P <;> simp [toRational, length, vectors]

theorem toRational_of_isRational {P : ControlPoints α} (h : P.isRational = true) :
    P.toRational = P := by
  cases P <;> simp_all [toRational, isRational]

/-! ## §3. Vectors of any size. -/

/-- Every vector that should end in a weight has a last coordinate. -/
def hasWeights : ControlPoints α → Bool
  | cartesian _ => true
  | homogeneous points => points.all (!·.isEmpty)

/-- All weights, if each vector has one. -/
def weights? (P : ControlPoints α) : Option (List α) :=
  if P.hasWeights then some P.weights else none

/-- The weight of a control point, if there are the point and its last coordinate. -/
def weightAt? (P : ControlPoints α) (i : Nat) : Option α :=
  match P with
  | cartesian _ => some 1
  | homogeneous points => do
      let p ← Sequence.item? points i
      Sequence.item? p (← Word.unsigned? ((p.length : Int) - 1))

/-- All weights, read one after the other. -/
def readWeights? (P : ControlPoints α) : Option (List α) :=
  (List.range P.length).mapM P.weightAt?

/-- All locations, if each vector has a weight to divide by. -/
def locations? (P : ControlPoints α) : Option (List (Point α)) :=
  if P.hasWeights then some P.locations else none

end ControlPoints

end RationalSpline
