/-
  RationalSpline.Proofs.FloatingOrder
  ───────────────────────────────────
  THE ORDER OF FLOATING POINT.

  A floating point number has a rank: its sign, its exponent and its mantissa, each counted
  in the direction of its sign.  An undefined number has none.  A comparison compares the
  ranks, so it has the laws of a linear order between all numbers that are defined
  (`Scalar.ComparesTotally`), and negation turns it round (`Scalar.Reverses`).  What is
  derived from these laws alone holds in double and in single precision.
-/
import RationalSpline.Proofs.Arranged
import RationalSpline.Scalar.Floating
import Mathlib.Data.Prod.Lex

namespace RationalSpline

/-! ## §1. Ranks. -/

/-- Numbers that are compared by ranks in a linear order compare as numbers do. -/
theorem Scalar.ComparesTotally.of_rank {α ρ : Type} [Scalar α] [LinearOrder ρ]
    (rank : α → Option ρ)
    (le_iff : ∀ a b : α, a ≤ b ↔ ∃ x ∈ rank a, ∃ y ∈ rank b, x ≤ y)
    (lt_iff : ∀ a b : α, a < b ↔ ∃ x ∈ rank a, ∃ y ∈ rank b, x < y)
    (beq_iff : ∀ a b : α, (a == b) = true ↔ ∃ x ∈ rank a, x ∈ rank b) :
    Scalar.ComparesTotally α where
  le_trans {a b c} ab bc := by
    obtain ⟨x, hx, y, hy, xy⟩ := (le_iff a b).1 ab
    obtain ⟨y', hy', z, hz, yz⟩ := (le_iff b c).1 bc
    -- the number in the middle has one rank, which both comparisons read
    cases Option.mem_unique hy hy'
    exact (le_iff a c).2 ⟨x, hx, z, hz, xy.trans yz⟩
  le_self {a b} ab := by
    obtain ⟨x, hx, y, hy, -⟩ := (le_iff a b).1 ab
    exact ⟨(le_iff a a).2 ⟨x, hx, x, hx, le_rfl⟩, (le_iff b b).2 ⟨y, hy, y, hy, le_rfl⟩⟩
  lt_iff {a b} := by
    constructor
    · intro ab
      obtain ⟨x, hx, y, hy, xy⟩ := (lt_iff a b).1 ab
      refine ⟨(le_iff a b).2 ⟨x, hx, y, hy, xy.le⟩, fun ba => ?_⟩
      obtain ⟨y', hy', x', hx', yx⟩ := (le_iff b a).1 ba
      cases Option.mem_unique hx hx'
      cases Option.mem_unique hy hy'
      exact not_le_of_gt xy yx
    · rintro ⟨ab, not⟩
      obtain ⟨x, hx, y, hy, -⟩ := (le_iff a b).1 ab
      exact (lt_iff a b).2 ⟨x, hx, y, hy, not_le.1 fun yx => not ((le_iff b a).2
        ⟨y, hy, x, hx, yx⟩)⟩
  beq_iff {a b} := by
    constructor
    · intro same
      obtain ⟨x, hx, hy⟩ := (beq_iff a b).1 same
      exact ⟨(le_iff a b).2 ⟨x, hx, x, hy, le_rfl⟩, (le_iff b a).2 ⟨x, hy, x, hx, le_rfl⟩⟩
    · rintro ⟨ab, ba⟩
      obtain ⟨x, hx, y, hy, xy⟩ := (le_iff a b).1 ab
      obtain ⟨y', hy', x', hx', yx⟩ := (le_iff b a).1 ba
      cases Option.mem_unique hx hx'
      cases Option.mem_unique hy hy'
      exact (beq_iff a b).2 ⟨x, hx, le_antisymm xy yx ▸ hy⟩
  le_total {a b} ha hb := by
    obtain ⟨x, hx, -⟩ := (le_iff a a).1 ha
    obtain ⟨y, hy, -⟩ := (le_iff b b).1 hb
    exact (LinearOrder.le_total x y).imp (fun xy => (le_iff a b).2 ⟨x, hx, y, hy, xy⟩)
      fun yx => (le_iff b a).2 ⟨y, hy, x, hx, yx⟩

end RationalSpline

namespace Float.Model.UnpackedFloat

/-! ## §2. Floating point. -/

/-- Where a number stands among the others: its sign, twice that if it is infinite, and then its
exponent and its mantissa. -/
def rank : UnpackedFloat → Option (Int ×ₗ Int ×ₗ Int)
  | .notANumber => none
  | .infinity .negative => some (toLex (-2, toLex (0, 0)))
  | .infinity .positive => some (toLex (2, toLex (0, 0)))
  | .zero _ => some (toLex (0, toLex (0, 0)))
  | .finite .negative m e _ => some (toLex (-1, toLex (-e, -m)))
  | .finite .positive m e _ => some (toLex (1, toLex (e, m)))

theorem compare_neg (x y : Int) : compare (-x) (-y) = (compare x y).swap := by
  rw [Int.compare_swap]
  simp only [compare, compareOfLessAndEq]
  grind

theorem compare_natCast (x y : Nat) : compare (x : Int) y = compare x y := by
  simp only [compare, compareOfLessAndEq]
  grind

/-- **Comparison compares ranks.** -/
theorem compare_eq (a b : UnpackedFloat) :
    a.compare b = (rank a).bind fun x => (rank b).map fun y => compare x y := by
  -- only numbers of one sign are told apart by their exponents and mantissas
  rcases a with (_ | _) | _ | (_ | _) | ⟨_ | _, m, e, _⟩ <;>
    rcases b with (_ | _) | _ | (_ | _) | ⟨_ | _, m', e', _⟩
  all_goals try rfl
  · show some ((compare e e').then (compare m m')).swap
      = some ((compare (-e) (-e')).then (compare (-(m : Int)) (-m')))
    rw [compare_neg, compare_neg, compare_natCast, Ordering.swap_then]
  · show some ((compare e e').then (compare m m'))
      = some ((compare e e').then (compare (m : Int) m'))
    rw [compare_natCast]

theorem le_iff (a b : UnpackedFloat) :
    a.le b = true ↔ ∃ x ∈ rank a, ∃ y ∈ rank b, x ≤ y := by
  rw [UnpackedFloat.le, compare_eq]
  cases rank a <;> cases rank b <;> simp [Ordering.isLE_iff_ne_gt, compare_gt_iff_gt]

theorem lt_iff (a b : UnpackedFloat) :
    a.lt b = true ↔ ∃ x ∈ rank a, ∃ y ∈ rank b, x < y := by
  rw [UnpackedFloat.lt, compare_eq]
  cases rank a <;> cases rank b <;> simp [compare_lt_iff_lt]

theorem beq_iff (a b : UnpackedFloat) :
    a.beq b = true ↔ ∃ x ∈ rank a, x ∈ rank b := by
  rw [UnpackedFloat.beq, compare_eq]
  cases rank a <;> cases rank b <;> simp [compare_eq_iff_eq]
  exact eq_comm

/-- **Negation turns a comparison round.** -/
theorem compare_neg_neg (a b : UnpackedFloat) : a.neg.compare b.neg = b.compare a := by
  rcases a with (_ | _) | _ | (_ | _) | ⟨_ | _, m, e, _⟩ <;>
    rcases b with (_ | _) | _ | (_ | _) | ⟨_ | _, m', e', _⟩
  all_goals try rfl
  · show some ((compare e e').then (compare m m'))
      = some ((compare e' e).then (compare m' m)).swap
    rw [Ordering.swap_then, Int.compare_swap, Nat.compare_swap]
  · show some ((compare e e').then (compare m m')).swap
      = some ((compare e' e).then (compare m' m))
    rw [Ordering.swap_then, Int.compare_swap, Nat.compare_swap]

theorem le_neg_neg (a b : UnpackedFloat) : a.neg.le b.neg = b.le a := by
  rw [UnpackedFloat.le, UnpackedFloat.le, compare_neg_neg]

/-- Packing loses nothing of a number that was packed before. -/
theorem unpack_pack_unpack (spec : Format) (bits : 2 ≤ spec.exponentBits)
    (b : BitVec spec.numBits) : unpack spec (pack spec (unpack spec b)) = unpack spec b := by
  rw [pack_unpack b bits]
  split_ifs with undefined
  · obtain ⟨exponent, mantissa⟩ := of_decide_eq_true undefined
    rw [unpack_packedNaN, unpack]
    simp [exponent, mantissa]
  · rfl

/-- Negation changes the sign alone, so it stays within the format. -/
theorem unpack_pack_neg (spec : Format) (bits : 2 ≤ spec.exponentBits)
    (b : BitVec spec.numBits) :
    unpack spec (pack spec (unpack spec b).neg) = (unpack spec b).neg := by
  have turned : (unpack spec b).neg = unpack spec (packComponents spec
      (-.ofBitVec (unpackSign b)) (unpackExponent b) (unpackMantissa b)) := by
    simp only [unpack, unpackSign_packComponents, unpackExponent_packComponents,
      unpackMantissa_packComponents, Sign.ofBitVec_toBitVec]
    split_ifs <;> rfl
  rw [turned, unpack_pack_unpack spec bits]

end Float.Model.UnpackedFloat

namespace RationalSpline

open Float.Model

/-- **Double precision compares as numbers do.** -/
instance : Scalar.ComparesTotally Float :=
  .of_rank (fun a => a.toModel.unpack.rank)
    (fun a b => decide_eq_true_iff.trans (UnpackedFloat.le_iff a.toModel.unpack b.toModel.unpack))
    (fun a b => decide_eq_true_iff.trans (UnpackedFloat.lt_iff a.toModel.unpack b.toModel.unpack))
    fun a b => UnpackedFloat.beq_iff a.toModel.unpack b.toModel.unpack

/-- **So does single precision.** -/
instance : Scalar.ComparesTotally Float32 :=
  .of_rank (fun a => a.toModel.unpack.rank)
    (fun a b => decide_eq_true_iff.trans (UnpackedFloat.le_iff a.toModel.unpack b.toModel.unpack))
    (fun a b => decide_eq_true_iff.trans (UnpackedFloat.lt_iff a.toModel.unpack b.toModel.unpack))
    fun a b => UnpackedFloat.beq_iff a.toModel.unpack b.toModel.unpack

/-- **Negation turns the order of double precision round.** -/
instance : Scalar.Reverses Float where
  neg_le_neg_iff {a b} := by
    have le_iff : ∀ x y : Float, x ≤ y ↔ x.toModel.unpack.le y.toModel.unpack = true :=
      fun _ _ => decide_eq_true_iff
    have neg : ∀ x : Float, (-x).toModel.unpack = x.toModel.unpack.neg := fun x =>
      UnpackedFloat.unpack_pack_neg .binary64 (by decide) x.toModel.toBits.toBitVec
    rw [le_iff, le_iff, neg, neg, UnpackedFloat.le_neg_neg]

/-- **And that of single precision.** -/
instance : Scalar.Reverses Float32 where
  neg_le_neg_iff {a b} := by
    have le_iff : ∀ x y : Float32, x ≤ y ↔ x.toModel.unpack.le y.toModel.unpack = true :=
      fun _ _ => decide_eq_true_iff
    have neg : ∀ x : Float32, (-x).toModel.unpack = x.toModel.unpack.neg := fun x =>
      UnpackedFloat.unpack_pack_neg .binary32 (by decide) x.toModel.toBits.toBitVec
    rw [le_iff, le_iff, neg, neg, UnpackedFloat.le_neg_neg]

end RationalSpline
