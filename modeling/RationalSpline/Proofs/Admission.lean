/-
  RationalSpline.Proofs.Admission
  ───────────────────────────────
  CURVES FROM OUTSIDE PARTS.

  Parts that come from outside can have any dimension and order, vectors of any sizes
  and any knots.  The check of them runs from rule to rule, and each rule that has
  passed makes the readings of the next one possible: enough points make room for the
  count of knots, vectors of their size have a last coordinate, the right number of
  knots has both end spans.  One number is out of reach of these rules: the size of a
  homogeneous vector, which is no word when the dimension is the largest one.

  Main statement: on all other parts the check has a verdict, and it is the defect that
  the rules find (`admitted_decided`).
-/
import RationalSpline.Proofs.DefinedDerivatives
import RationalSpline.Curve.Json

namespace RationalSpline

variable {α : Type} [Scalar α]

/-! ## §1. Groups counted in words. -/

namespace KnotVector

variable [Precision α]

/-- Groups of so few members fit their words. -/
theorem groupFrom?_eq {m : KnotMultiplicity α} {values : List α}
    (word : m.multiplicity + values.length < countLimit) :
    groupFrom? m values = some (groupFrom m values) := by
  induction values generalizing m with
  | nil => rfl
  | cons k ks ih =>
      rw [List.length_cons] at word
      unfold groupFrom? groupFrom
      split
      · rw [ih (show 1 + ks.length < countLimit by omega), Option.map_some]
      · have one : m.increment? = some m.increment := by
          rw [KnotMultiplicity.increment?,
              Word.unsigned?_eq (m := m.multiplicity + 1) (by omega) (by omega)]
          rfl
        rw [one, Option.bind_some,
            ih (by rw [KnotMultiplicity.multiplicity_increment]; omega)]

theorem multiplicities?_eq {U : KnotVector α} (word : U.size < countLimit) :
    U.multiplicities? = some U.multiplicities := by
  obtain ⟨values⟩ := U
  cases values with
  | nil => rfl
  | cons k ks =>
      refine groupFrom?_eq ?_
      have size : (KnotVector.mk (k :: ks)).size = ks.length + 1 := rfl
      show 1 + ks.length < countLimit
      omega

end KnotVector

/-! ## §2. Weights read in place. -/

namespace ControlPoints

/-- Vectors that have a last coordinate have a weight. -/
theorem weightAt?_eq {P : ControlPoints α}
    (sized : ∀ p ∈ P.vectors, 0 < p.length ∧ p.length < countLimit) {i : Nat}
    (h : i < P.length) : P.weightAt? i = some (P.weight i) := by
  cases P with
  | cartesian points => rfl
  | homogeneous points =>
      have inside : i < points.length := h
      obtain ⟨pos, word⟩ := sized _ (List.getElem_mem inside)
      have entry : points.getD i [] = points[i] := List.getD_eq_getElem _ _ inside
      have last : points[i].getD (points[i].length - 1) 0 = Point.weight points[i] := by
        rw [Point.weight, List.getLastD_eq_getLast?, List.getLast?_eq_getElem?,
            List.getD_eq_getElem?_getD]
      rw [weightAt?, Sequence.item?_eq rfl inside [], entry]
      simp only [Option.bind_eq_bind, Option.bind_some]
      rw [Word.unsigned?_eq (m := points[i].length - 1) (by omega) (by omega), Option.bind_some,
          Sequence.item?_eq rfl (show points[i].length - 1 < points[i].length by omega) 0, last,
          weight, entry]

theorem readWeights?_eq {P : ControlPoints α}
    (sized : ∀ p ∈ P.vectors, 0 < p.length ∧ p.length < countLimit) :
    P.readWeights? = some P.weights :=
  Sequence.mapM_eq_some fun _ hi => weightAt?_eq sized (List.mem_range.1 hi)

end ControlPoints

namespace Curve

variable {c : Curve α}

/-! ## §3. Counts. -/

omit [Scalar α] in
/-- With room for the sum of points and order, the counts have a verdict. -/
theorem countVerdict?_eq (room : c.order ≤ c.pointCount → c.pointCount + c.order < countLimit) :
    c.countVerdict? = some c.countDefect? := by
  unfold countVerdict? countDefect?
  dsimp only
  by_cases dimension : c.dimension < 1
  · rw [if_pos dimension, if_pos dimension]
  by_cases order : c.order < 2
  · simp only [dimension, order, if_true, if_false]
  by_cases points : c.pointCount < c.order
  · simp only [dimension, order, points, if_true, if_false]
  have word := room (by omega)
  simp only [dimension, order, points, if_false]
  rw [Word.unsigned?_eq (m := c.pointCount + c.order) (by omega) word]
  simp only [Option.bind_eq_bind, Option.bind_some]
  rw [Word.unsigned?_eq (m := c.pointCount + c.order - 2) (by omega) (by omega), Option.bind_some]
  split <;> rfl

omit [Scalar α] in
/-- Counts that pass have room for the sum. -/
theorem of_countVerdict?_eq_none (h : c.countVerdict? = some none) :
    c.countDefect? = none ∧ c.pointCount + c.order < countLimit := by
  suffices word : c.pointCount + c.order < countLimit by
    rw [countVerdict?_eq fun _ => word] at h
    exact ⟨Option.some.inj h, word⟩
  by_contra large
  have none : Word.unsigned? ((c.pointCount : Int) + c.order) = none := by
    rw [Word.unsigned?, if_neg (by omega)]
  simp only [countVerdict?, none, Option.bind_eq_bind, Option.bind_none] at h
  split_ifs at h <;> cases h

omit [Scalar α] in
theorem vectorSize?_eq (word : c.vectorSize < countLimit) : c.vectorSize? = some c.vectorSize :=
  Word.unsigned?_eq rfl word

omit [Scalar α] in
theorem vectorSize?_eq_none (large : countLimit ≤ c.vectorSize) : c.vectorSize? = none := by
  rw [vectorSize?, Word.unsigned?, if_neg (by omega)]

/-! ## §4. Verdicts. -/

/-- Both knots of the span are there. -/
theorem isEmptySpan?_eq {i : Int} {k : Nat} (at_ : i = k) (h : k + 1 < c.knotCount)
    (word : c.knotCount < countLimit) :
    c.isEmptySpan? i = some (decide (c.knots.knot (k + 1) ≤ c.knots.knot k)) := by
  have inside : k + 1 < c.knots.values.length := h
  rw [isEmptySpan?, Word.unsigned?_eq at_ (by omega)]
  simp only [Option.bind_eq_bind, Option.bind_some]
  rw [Sequence.item?_eq rfl (show k < c.knots.values.length by omega) 0, Option.bind_some,
      Word.unsigned?_eq (m := k + 1) (by omega) (by omega), Option.bind_some,
      Sequence.item?_eq rfl inside 0]
  rfl

variable [Precision α]

/-- Knots of the right number have both end spans. -/
theorem knotVerdict?_eq (counts : c.countDefect? = none)
    (room : c.pointCount + c.order < countLimit) : c.knotVerdict? = some c.knotDefect? := by
  obtain ⟨-, order, points, count⟩ := of_countDefect?_eq_none counts
  have word : c.knotCount < countLimit := by omega
  have size : c.knots.size = c.knotCount := rfl
  have first := isEmptySpan?_eq (c := c) (i := (c.order : Int) - 2) (k := c.order - 2) (by omega)
    (by omega) word
  have last := isEmptySpan?_eq (c := c) (i := (c.pointCount : Int) - 2) (k := c.pointCount - 2)
    (by omega) (by omega) word
  rw [show c.order - 2 + 1 = c.order - 1 by omega] at first
  rw [show c.pointCount - 2 + 1 = c.pointCount - 1 by omega] at last
  have degree : Word.unsigned? ((c.order : Int) - 1) = some c.degree :=
    Word.unsigned?_eq (m := c.order - 1) (by omega) (by omega)
  have groups := KnotVector.multiplicities?_eq (U := c.knots) (by omega)
  unfold knotVerdict? knotDefect?
  simp only [first, last, degree, groups, Option.bind_eq_bind, Option.bind_some]
  split_ifs <;> simp_all

/-- **With words for all counts, the check has a verdict: the defect that the rules find.** -/
theorem verdict?_eq (room : c.order ≤ c.pointCount → c.pointCount + c.order < countLimit)
    (word : c.countDefect? = none → c.vectorSize < countLimit) :
    c.verdict? = some c.defect? := by
  unfold verdict? defect?
  rw [countVerdict?_eq room]
  simp only [Option.bind_eq_bind, Option.bind_some]
  cases counts : c.countDefect? with
  | some d => rfl
  | none =>
      obtain ⟨dimension, -, points, -⟩ := of_countDefect?_eq_none counts
      have small := word counts
      rw [vectorSize?_eq small]
      simp only [Option.bind_some]
      cases vectors : vectorDefect? c.vectorSize 0 c.points.vectors with
      | some d => rfl
      | none =>
          have positive : 0 < c.vectorSize := by
            unfold vectorSize
            split <;> omega
          have sized : ∀ p ∈ c.points.vectors, 0 < p.length ∧ p.length < countLimit :=
            fun p hp => by
              rw [length_of_vectorDefect?_eq_none vectors p hp]
              exact ⟨positive, small⟩
          simp only [ControlPoints.readWeights?_eq sized, Option.bind_some]
          cases weights : c.points.weights.findIdx? fun w => !Scalar.isWeight w with
          | some i => rfl
          | none => exact knotVerdict?_eq counts (room points)

/-- Counts that pass leave the size of the vectors, which has to be a word. -/
theorem verdict?_eq_none (counts : c.countVerdict? = some none)
    (large : countLimit ≤ c.vectorSize) : c.verdict? = none := by
  unfold verdict?
  rw [counts, vectorSize?_eq_none large]
  rfl

/-- What the check admits is valid, however many points there are. -/
theorem admitted_eq_ok {d : Curve α} (h : c.admitted = .ok d) : c.isValid = true ∧ c = d := by
  unfold admitted at h
  split at h
  · cases h
  · cases h
  · next passed =>
      have counts : c.countVerdict? = some none := by
        unfold verdict? at passed
        cases verdict : c.countVerdict? with
        | none => simp [verdict] at passed
        | some r =>
            cases r with
            | none => rfl
            | some d => simp [verdict] at passed
      obtain ⟨-, room⟩ := of_countVerdict?_eq_none counts
      have word : c.vectorSize < countLimit := by
        by_contra large
        rw [verdict?_eq_none counts (Nat.le_of_not_lt large)] at passed
        cases passed
      rw [verdict?_eq (fun _ => room) fun _ => word] at passed
      exact ⟨isValid_iff.2 ⟨word, Option.some.inj passed⟩, Except.ok.inj h⟩

/-! ## §5. Parts from outside. -/

/-- The counts pass, but the weight is one coordinate more than a word can count. -/
def SizeOverflows (c : Curve α) : Prop :=
  c.countDefect? = none ∧ c.isRational = true ∧ c.dimension + 1 = countLimit

/-- **Parts from outside are decided**, unless the size of their vectors overflows: they are
admitted as they are when no rule fails, and refused for the first rule that fails otherwise.
Reading a text ends in the same decision. -/
theorem admitted_decided (word : c.dimension < countLimit)
    (held : c.pointCount < Word.signedLimit) :
    (c.SizeOverflows →
        ofParts c.dimension c.order c.points c.knots.values = .error .undefined
          ∧ ∀ rest, Json.accept c rest = .error (.refused .undefined))
      ∧ (¬c.SizeOverflows →
        (c.defect? = none ∧ ofParts c.dimension c.order c.points c.knots.values = .ok c
            ∧ ∀ rest, Json.accept c rest = .ok (c, rest))
          ∨ ∃ d, c.defect? = some d
            ∧ ofParts c.dimension c.order c.points c.knots.values = .error (.validationFailed d)
            ∧ ∀ rest, Json.accept c rest = .error (.refused (.validationFailed d))) := by
  have limit : Word.signedLimit + Word.signedLimit = countLimit := rfl
  have room : c.order ≤ c.pointCount → c.pointCount + c.order < countLimit := by omega
  have parts : ofParts c.dimension c.order c.points c.knots.values = c.admitted := rfl
  rw [parts]
  unfold Json.accept
  refine ⟨?_, ?_⟩
  · rintro ⟨counts, rational, large⟩
    have size : c.vectorSize = c.dimension + 1 := if_pos rational
    have undecided : c.admitted = .error .undefined := by
      rw [admitted, verdict?_eq_none (by rw [countVerdict?_eq room, counts]) (by omega)]
    rw [undecided]
    exact ⟨rfl, fun _ => rfl⟩
  · intro fits
    have small : c.countDefect? = none → c.vectorSize < countLimit := by
      intro counts
      unfold vectorSize
      split
      · next rational =>
          have differ : c.dimension + 1 ≠ countLimit := fun e => fits ⟨counts, rational, e⟩
          omega
      · exact word
    have verdict := verdict?_eq room small
    cases defect : c.defect? with
    | none =>
        have passed : c.admitted = .ok c := by rw [admitted, verdict, defect]
        rw [passed]
        exact .inl ⟨rfl, rfl, fun _ => rfl⟩
    | some d =>
        have refused : c.admitted = .error (.validationFailed d) := by
          rw [admitted, verdict, defect]
        rw [refused]
        exact .inr ⟨d, rfl, rfl, fun _ => rfl⟩

/-- Parts with a vector that has no coordinates. -/
def jagged : Curve ℚ where
  dimension := 2
  order := 2
  points := .homogeneous [[0, 0, 1], []]
  knots := ⟨[0, 1]⟩

/-- Parts of the largest dimension. -/
def widest : Curve ℚ where
  dimension := 18446744073709551615
  order := 2
  points := .homogeneous [[0, 1], [1, 1]]
  knots := ⟨[0, 1]⟩

theorem sizeOverflows_widest : widest.SizeOverflows := ⟨rfl, rfl, rfl⟩

/-- The missing coordinates are a defect; the largest dimension leaves the parts undecided. -/
theorem admitted_decided_jagged :
    jagged.dimension < countLimit ∧ jagged.pointCount < Word.signedLimit ∧ ¬jagged.SizeOverflows
      ∧ (∃ d, jagged.defect? = some d
        ∧ ofParts 2 2 jagged.points jagged.knots.values = .error (.validationFailed d)
        ∧ ∀ rest, Json.accept jagged rest = .error (.refused (.validationFailed d)))
      ∧ widest.dimension < countLimit ∧ widest.pointCount < Word.signedLimit
      ∧ ofParts widest.dimension 2 widest.points widest.knots.values = .error .undefined := by
  have small : jagged.dimension < countLimit := by decide
  have few : jagged.pointCount < Word.signedLimit := by decide
  have fits : ¬jagged.SizeOverflows := fun h => absurd h.2.2 (by decide)
  have decision := (admitted_decided small few).2 fits
  have wide : widest.dimension < countLimit := by decide
  have two : widest.pointCount < Word.signedLimit := by decide
  refine ⟨small, few, fits, decision.resolve_left ?_, wide, two,
    ((admitted_decided wide two).1 sizeOverflows_widest).1⟩
  rintro ⟨none, -⟩
  have some : jagged.defect?.isSome = true := by decide +kernel
  rw [none] at some
  cases some

/-- Not all parts from outside are decided. -/
theorem widest_undecided :
    widest.dimension < countLimit ∧ widest.order < countLimit
      ∧ ¬((∃ c, ofParts widest.dimension widest.order widest.points widest.knots.values = .ok c)
        ∨ ∃ d, ofParts widest.dimension widest.order widest.points widest.knots.values
          = .error (.validationFailed d)) := by
  have counts : widest.countVerdict? = some none := countVerdict?_eq fun _ => by decide
  have verdict : widest.verdict? = none :=
    verdict?_eq_none counts sizeOverflows_widest.2.2.ge
  have undecided : ofParts widest.dimension widest.order widest.points widest.knots.values
      = .error .undefined := by
    show widest.admitted = _
    rw [admitted, verdict]
  refine ⟨by decide, by decide, ?_⟩
  rw [undecided]
  rintro (⟨c, ok⟩ | ⟨d, failed⟩)
  · cases ok
  · cases failed

end Curve

end RationalSpline
