/-
  RationalSpline.Curve.KnotEditing
  ────────────────────────────────
  CHANGES OF THE KNOTS.

  Setting a knot and respacing the knots keep the control points, so they change
  the shape.  `setDomain`, `insertKnot` and `clampEnd` keep the shape.  A removed
  knot keeps it as far as the knot was removable.
-/
import RationalSpline.Curve.Construction
import RationalSpline.Spline.Insertion
import RationalSpline.Spline.Removal

namespace RationalSpline.Curve

variable {α : Type} [Scalar α]

/-! ## §1. Direct changes. -/

/-- The curve with one knot changed, if the order of the knots allows it. -/
def setKnot [Precision α] (c : Curve α) (index : Nat) (value : α) :
    Except (Failure α) (Curve α) := do
  checkIndex index c.knotCount
  if (0 < index ∧ value < c.knots.knot (index - 1))
      ∨ (index + 1 < c.knotCount ∧ c.knots.knot (index + 1) < value)
      ∨ Precision.isFinite value = false then
    .error (.outOfDomain (.knotOrder value index))
  else .ok { c with knots := ⟨c.knots.values.set index value⟩ }

/-- The control points on uniform knots.  Clamped knots need a span. -/
def makeUniform [Precision α] (c : Curve α) (delta : α) (clamped : Bool) :
    Except (Failure α) (Curve α) := do
  checkSpacing delta
  if !clamped then .ok { c with knots := KnotVector.periodicUniform c.order c.pointCount delta }
  else if c.hasSpan then
    .ok { c with knots := KnotVector.clampedUniform c.order c.pointCount delta }
  else .error .undefined

/-- The curve with its domain moved and scaled to `[t0, t1]`. -/
def setDomain (c : Curve α) (t0 t1 : α) : Except (Failure α) (Curve α) :=
  if t0 < t1 then
    -- the same domain keeps every knot as it is
    if c.domain.1 == t0 && c.domain.2 == t1 then .ok c
    else .ok { c with knots := c.knots.remap c.domain (t0, t1) }
  else .error (.outOfDomain (.emptyDomain t0 t1))

/-! ## §2. Insertion. -/

/-- The curve with `value` inserted as a knot, so often that its multiplicity does
not exceed the degree.  An unclamped end takes no knot: it would leave an empty
end span. -/
def insertKnot (c : Curve α) (value : α) (multiplicity : Nat) :
    Except (Failure α) (Curve α) :=
  let (t0, t1) := c.domain
  let existing := c.knots.count value
  if multiplicity = 0 then .error (.invalidShape .noInsertion)
  else if ¬(t0 ≤ value ∧ value ≤ t1) then
    .error (.outOfDomain (.outsideDomain value t0 t1))
  -- the sum has to be a count
  else if countLimit ≤ existing + multiplicity then .error .undefined
  else if c.degree < existing + multiplicity then
    .error (.invalidShape
      (.multiplicityAboveDegree value (existing + multiplicity) c.degree))
  else if (value == t0 && !c.isClamped .start) || (value == t1 && !c.isClamped .finish) then
    .error (.outOfDomain (.unclampedEnd value t0 t1))
  else
    match c.spline.insertTimes? value multiplicity with
    | some S => .ok (c.withSpline S)
    | none => .error .undefined

/-! ## §3. Clamping. -/

/-- The curve from the first knot equal to `t0` on, given a padded spline. -/
def trimStart (c : Curve α) (S : Spline α) (t0 : α) : Except (Failure α) (Curve α) :=
  -- the knot before the first `t0` is the one that padding added
  let g := max 1 ((S.knots.values.findIdx? (· == t0)).getD 1)
  if g < S.knots.size ∧ g ≤ S.points.length + 1 then
    .ok
      { c with
        points := c.points.withVectors (S.points.drop (g - 1))
        knots := ⟨S.knots.values.dropLast.drop g⟩ }
  else .error .undefined

/-- The same curve with full multiplicity of the start of its domain.  Knots and
control points that act only before the domain are dropped. -/
def clampStart (c : Curve α) : Except (Failure α) (Curve α) :=
  if c.isClamped .start then .ok c
  else
    let t0 := c.domain.1
    match c.spline.insertTimes? t0 (c.degree - c.knots.count t0) with
    | some S => c.trimStart S t0
    | none => .error .undefined

/-- The same curve with full multiplicity of an end of its domain. -/
def clampEnd (c : Curve α) : CurveEnd → Except (Failure α) (Curve α)
  | .start => c.clampStart
  | .finish => c.invert.clampStart.map invert

/-- The same curve, clamped at both ends. -/
def clampEnds (c : Curve α) : Except (Failure α) (Curve α) :=
  (c.clampEnd .start).bind fun c => c.clampEnd .finish

/-! ## §4. Removal. -/

/-- Remove the knots at the given compact indices, one after the other.  Of a run
of equal knots it is always the last that goes. -/
def removeEach (S : Spline α) : List Nat → Option (Spline α)
  | [] => some S
  | index :: rest =>
      let value := S.knots.knot (index + 1)
      let r := (Sequence.lastIndex? (· == value) S.knots.values).getD (index + 1)
      (S.remove? r).bind fun S => removeEach S rest

/-- The curve without the interior knots `index0, …, index1 - 1`. -/
def removeKnots [Precision α] (c : Curve α) (index0 index1 : Nat) :
    Except (Failure α) (Curve α) :=
  if index0 < c.order - 1 then .error (.invalidIndex index0 c.knotCount)
  else if index1 ≤ index0 ∨ c.pointCount - 1 < index1 then
    .error (.invalidIndex index1 c.pointCount)
  else
    match c.validate with
    | .error e => .error e
    | .ok () =>
        let (t0, t1) := c.domain
        let removed := (c.knots.values.drop index0).take (index1 - index0)
        if removed.any fun k => decide (k ≤ t0 ∨ t1 ≤ k) then
          .error (.outOfDomain .endKnotRemoval)
        else
          -- from the last one down, so that the indices before it stay what they are
          let indices := (List.range (index1 - index0)).reverse.map (index0 + ·)
          match removeEach c.spline indices with
          | some S => .ok (c.withSpline S)
          | none => .error .undefined

end RationalSpline.Curve
