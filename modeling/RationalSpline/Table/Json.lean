/-
  RationalSpline.Table.Json
  ─────────────────────────
  THE JSON FORM OF A TABLE ENTRY.

  An entry is an object with the members `id`, `name` and `curve`, or an array of
  the three.  Members are read in the order of the text, and the first failure
  counts.
-/
import RationalSpline.Curve.Json
import RationalSpline.Table
import RationalSpline.Uuid

namespace RationalSpline.Json

variable {α : Type} [Binary α] [Precision α] [Scalar α]

/-- What has been read of an entry. -/
structure EntryParts (α : Type) where
  /-- The identity. -/
  id : Option Uuid := none
  /-- The display name. -/
  name : Option String := none
  /-- The curve. -/
  curve : Option (Curve α) := none

/-- An identifier. -/
def uuid {ρ : Type} : Decoder ρ Uuid := do Decoder.required (Uuid.parse? (← Decoder.text))

/-- One member of an entry more. -/
def entryMember (name : String) (parts : EntryParts α) :
    Decoder (Failure α) (EntryParts α) :=
  if name = "id" then
    return { parts with id := ← Decoder.once parts.id uuid }
  else if name = "name" then
    return { parts with name := ← Decoder.once parts.name Decoder.text }
  else if name = "curve" then
    return { parts with curve := ← Decoder.once parts.curve curve }
  else do
    Decoder.skip
    pure parts

/-- An entry. -/
def entry : Decoder (Failure α) (Entry Uuid α) := do
  let parts ← Decoder.record ["id", "name", "curve"] entryMember {}
  let id ← Decoder.required parts.id
  let name ← Decoder.required parts.name
  let curve ← Decoder.required parts.curve
  pure ⟨id, name, curve⟩

/-- The entry that a text describes. -/
def entryOfText (text : String) : Except (ReadFailure (Failure α)) (Entry Uuid α) :=
  entry.run text

end RationalSpline.Json
