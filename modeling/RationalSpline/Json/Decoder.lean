/-
  RationalSpline.Json.Decoder
  ───────────────────────────
  READING A TEXT AS A VALUE OF A KNOWN KIND.

  A decoder takes a value of its kind from the front of a JSON text.  A text of the
  wrong form is malformed; a decoder may also refuse what it has read.  The first
  failure counts, so a value is refused before the text after it is looked at.
-/
import RationalSpline.Json.Reader

namespace RationalSpline.Json

/-- Why a text holds no value of the kind that was asked for. -/
inductive ReadFailure (ρ : Type) where
  /-- The text is not of the form. -/
  | malformed
  /-- The value it describes is refused. -/
  | refused (cause : ρ)
  deriving Repr

/-- Takes a value from the front of a text and leaves what follows. -/
abbrev Decoder (ρ : Type) := StateT (List Char) (Except (ReadFailure ρ))

namespace Decoder

variable {ρ β γ σ : Type}

/-! ## §1. Single tokens. -/

/-- The text is not of the form. -/
def malformed : Decoder ρ β := throw .malformed

/-- A value that must be there. -/
def required : Option β → Decoder ρ β
  | some b => pure b
  | none => malformed

/-- The decoder of a reader that skips blanks first. -/
def ofReader (read? : List Char → Option (β × List Char)) : Decoder ρ β := fun cs =>
  match read? (skipBlanks cs) with
  | some result => .ok result
  | none => .error .malformed

/-- The next character after blanks, which stays. -/
def peek : Decoder ρ (Option Char) := fun cs => .ok ((skipBlanks cs).head?, cs)

/-- One given character. -/
def symbol (c : Char) : Decoder ρ Unit :=
  ofReader fun cs => if cs.head? = some c then some ((), cs.tail) else none

/-- A number. -/
def number : Decoder ρ Json := ofReader number?

/-- A 64-bit count. -/
def count : Decoder ρ Nat := do required (← number).count?

/-- A string. -/
def text : Decoder ρ String := do
  symbol '"'
  fun cs =>
    match stringBody? cs with
    | some result => .ok result
    | none => .error .malformed

/-- The word `null`. -/
def null : Decoder ρ Json := ofReader (word? "null" .null)

/-- Any value, passed over. -/
def skip : Decoder ρ Unit := ofReader fun cs => (skipValue? cs).map fun rest => ((), rest)

/-! ## §2. Arrays. -/

/-- The items of an array from the next one to the closing bracket. -/
def items (item : Decoder ρ β) : Nat → Decoder ρ (List β)
  | 0 => malformed
  | fuel + 1 => do
      let first ← item
      match ← peek with
      | some ']' => do symbol ']'; pure [first]
      | some ',' => do symbol ','; return first :: (← items item fuel)
      | _ => malformed

/-- An array of values of one kind. -/
def listOf (item : Decoder ρ β) : Decoder ρ (List β) := do
  symbol '['
  match ← peek with
  | some ']' => do symbol ']'; pure []
  | _ => do items item (← get).length

/-! ## §3. Records. -/

/-- The value of a member that has not been read before. -/
def once (slot : Option β) (value : Decoder ρ β) : Decoder ρ (Option β) :=
  if slot.isSome then malformed else some <$> value

/-- The members of an object from the next one to the closing brace. -/
def members (member : String → σ → Decoder ρ σ) : Nat → σ → Decoder ρ σ
  | 0, _ => malformed
  | fuel + 1, state => do
      let name ← text
      symbol ':'
      let state ← member name state
      match ← peek with
      | some '\x7d' => do symbol '\x7d'; pure state
      | some ',' => do symbol ','; members member fuel state
      | _ => malformed

/-- The items of an array as the members of the given names. -/
def positional (member : String → σ → Decoder ρ σ) : List String → σ → Decoder ρ σ
  | [], state => do symbol ']'; pure state
  | [name], state => do
      let state ← member name state
      symbol ']'
      pure state
  | name :: names, state => do
      let state ← member name state
      symbol ','
      positional member names state

/-- A record: an object, or an array of its members in the order of `names`. -/
def record (names : List String) (member : String → σ → Decoder ρ σ) (start : σ) :
    Decoder ρ σ := do
  match ← peek with
  | some '[' => do
      symbol '['
      positional member names start
  | some '\x7b' => do
      symbol '\x7b'
      match ← peek with
      | some '\x7d' => do symbol '\x7d'; pure start
      | _ => do members member (← get).length start
  | _ => malformed

/-! ## §4. Whole texts. -/

/-- The value that a text holds. -/
def run (value : Decoder ρ β) (text : String) : Except (ReadFailure ρ) β :=
  match value text.toList with
  | .ok (b, rest) => if isBlank rest then .ok b else .error .malformed
  | .error e => .error e

end Decoder

end RationalSpline.Json
