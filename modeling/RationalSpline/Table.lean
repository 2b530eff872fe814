/-
  RationalSpline.Table
  ────────────────────
  TABLES OF CURVES.

  A table keeps curves in the order of insertion, each with an identity and a
  display name.  An index from identities to positions is kept beside the list;
  removal moves the positions after the gap down by one.

  An entry that is handed out for a change can be replaced as a whole, its identity
  included, and the index does not hear of it.  So a position may come to lie behind
  the last entry, or be asked to move below 0: `seek?` and `remove?` then have no
  result.
-/
import RationalSpline.Curve.Edit
import Std.Data.HashMap

namespace RationalSpline

/-- A curve in a table. -/
structure Entry (ι α : Type) where
  /-- Its identity. -/
  id : ι
  /-- Its display name, which others may share. -/
  name : String
  /-- The curve. -/
  curve : Curve α
  deriving Repr

/-- Curves in order, with their positions by identity. -/
structure Table (ι α : Type) [BEq ι] [Hashable ι] where
  /-- The entries in the order of insertion. -/
  entries : List (Entry ι α)
  /-- The position of each identity. -/
  positions : Std.HashMap ι Nat

namespace Table

variable {ι α : Type} [BEq ι] [Hashable ι]

/-- The table without entries. -/
def empty : Table ι α := ⟨[], ∅⟩

/-! ## §1. Lookups. -/

/-- The number of entries. -/
def size (table : Table ι α) : Nat := table.entries.length

/-- Whether there are no entries. -/
def isEmpty (table : Table ι α) : Bool := table.entries.isEmpty

/-- The entry at a position. -/
def at? (table : Table ι α) (index : Nat) : Option (Entry ι α) := table.entries[index]?

/-- The entry of an identity, if it has one; there is no answer if its position lies behind
the entries. -/
def seek? (table : Table ι α) (id : ι) : Option (Option (Entry ι α)) :=
  match table.positions[id]? with
  | none => some none
  | some i => table.entries[i]?.map some

/-- The entry of an identity. -/
def find? (table : Table ι α) (id : ι) : Option (Entry ι α) := (table.seek? id).join

/-- The entries of a name, in order. -/
def named (table : Table ι α) (name : String) : List (Entry ι α) :=
  table.entries.filter fun e => e.name == name

/-! ## §2. Changes. -/

/-- The table with a curve under a fresh identity. -/
def add (table : Table ι α) (id : ι) (name : String) (curve : Curve α) : Table ι α :=
  { entries := table.entries ++ [⟨id, name, curve⟩]
    positions := table.positions.insert id table.entries.length }

@[simp] theorem size_add (table : Table ι α) (id : ι) (name : String) (curve : Curve α) :
    (table.add id name curve).size = table.size + 1 := by
  simp [add, size]

/-- The position of an identity moved down by one, unless it is the first. -/
def lower? (positions : Std.HashMap ι Nat) (id : ι) : Option (Std.HashMap ι Nat) :=
  if positions[id]? = some 0 then none else some (positions.modify id (· - 1))

/-- The curve of an identity, if it has one, and the table without it; there is no result if a
position leaves the list on the way. -/
def remove? (table : Table ι α) (id : ι) : Option (Option (Curve α) × Table ι α) :=
  match table.positions[id]? with
  | none => some (none, table)
  | some i => do
      let entry ← table.entries[i]?
      -- the entries after the gap are one position lower
      let rest := table.entries.eraseIdx i
      let positions ← (rest.drop i).foldlM (fun positions e => lower? positions e.id)
        (table.positions.erase id)
      return (some entry.curve, ⟨rest, positions⟩)

/-- The curve of an identity, and the table without it. -/
def remove (table : Table ι α) (id : ι) : Option (Curve α) × Table ι α :=
  (table.remove? id).getD (none, table)

/-- The table with the entry of an identity changed, or replaced by another. -/
def modify (table : Table ι α) (id : ι) (f : Entry ι α → Entry ι α) : Table ι α :=
  match table.positions[id]? with
  | none => table
  | some i => { table with entries := table.entries.modify i f }

/-- The outcome of an edit of the curve of an identity, and the table after it. -/
def edit [Scalar α] [Precision α] [Analytic α] (table : Table ι α) (id : ι) (e : Edit α) :
    Option (Curve.Outcome α × Table ι α) :=
  (table.find? id).map fun entry =>
    let outcome := e.apply entry.curve
    (outcome, table.modify id fun entry => { entry with curve := outcome.curve })

end Table

end RationalSpline
