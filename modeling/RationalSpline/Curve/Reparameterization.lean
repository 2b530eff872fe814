/-
  RationalSpline.Curve.Reparameterization
  ───────────────────────────────────────
  LINEAR FRACTIONAL CHANGES OF PARAMETER.

  With the domain scaled to `[0, 1]`, the map `u ↦ c·u / ((c - 1)·u + 1)` fixes
  both ends.  A rational curve absorbs it: each control vector is divided by the
  product of the denominators at its `degree` knots, and the knots move along.
  The freedom of `c` and of a common factor sets the two end weights.
-/
import RationalSpline.Curve.KnotEditing
import RationalSpline.Curve.Outcome
import RationalSpline.Curve.Weights

namespace RationalSpline

variable {α : Type} [Scalar α] [Precision α]

namespace Curve

/-! ## §1. Reparameterization. -/

/-- The knots scaled so that the domain is `[0, 1]`. -/
def normalizedKnots (c : Curve α) : List α :=
  let (t0, t1) := c.domain
  c.knots.values.map fun k => (k - t0) / (t1 - t0)

/-- The factor of a control vector, given its `degree` scaled knots. -/
def fractionalFactor (factor : α) (knots : List α) : α :=
  knots.foldl (fun acc u => acc / ((factor - 1) * u + 1)) 1

/-- The curve under the linear fractional map; its ends must be clamped and its
points carry weights. -/
def applyFractional (c : Curve α) (factor : α) : Curve α :=
  let (t0, t1) := c.domain
  let scaled := c.normalizedKnots
  { c with
    points := c.points.withVectors (c.points.vectors.mapIdx fun i p =>
      Point.scale p (fractionalFactor factor ((scaled.drop i).take c.degree)))
    knots := ⟨(c.knots.values.zip scaled).map fun (k, u) =>
      -- the ends of the domain stay exactly
      if k == t0 || k == t1 then k
      else t0 + (t1 - t0) * (factor * u / ((factor - 1) * u + 1))⟩ }

/-- The curve traced at the parameters of the linear fractional map. -/
def reparameterize (c : Curve α) (factor : α) : Except (Failure α) (Curve α) :=
  if Scalar.isWeight factor then
    if factor == 1 then .ok c
    else c.clampEnds.map fun c => c.makeRational.applyFractional factor
  else .error (.outOfDomain (.reparameterization factor))

/-! ## §2. End weights. -/

/-- The curve with all stored vectors scaled: the same points, other weights. -/
def scaleVectors (c : Curve α) (a : α) : Curve α :=
  { c with points := c.points.withVectors (c.points.vectors.map (Point.scale · a)) }

/-- Give a clamped rational curve the end weights `w0` and `w1`. -/
def fitEndWeights [Analytic α] (c : Curve α) (w0 w1 : α) : Outcome α :=
  let v0 := c.points.weight 0
  let v1 := c.points.weight (c.pointCount - 1)
  -- the map multiplies the ratio of the end weights by `1 / factor ^ degree`
  let factor := Analytic.pow ((v1 * w0) / (v0 * w1)) (1 / (c.degree : α))
  match c.reparameterize factor with
  | .ok moved => ⟨moved.scaleVectors (w0 / v0), none⟩
  | .error e => ⟨c, some e⟩

/-- Give the curve the end weights `w0` and `w1` without changing its image.  It is
clamped and made rational before the factor of the reparameterization is known. -/
def changeEndWeights [Analytic α] (c : Curve α) (w0 w1 : α) : Outcome α :=
  match checkWeight w0, checkWeight w1 with
  | .error e, _ => ⟨c, some e⟩
  | _, .error e => ⟨c, some e⟩
  | .ok (), .ok () =>
      if !c.isRational && w0 == 1 && w1 == 1 then ⟨c, none⟩
      else
        match c.clampEnds with
        | .error e => ⟨c, some e⟩
        | .ok clamped => clamped.makeRational.fitEndWeights w0 w1

end Curve

end RationalSpline
