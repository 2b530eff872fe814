/-
  RationalSpline.Json.Reader
  ──────────────────────────
  READING JSON.

  A reader takes something from the front of a text and returns what follows.  Every
  step either takes a character or goes one level down, so twice the length of the
  text bounds the recursion.  Strings that nobody asks for may hold escapes of lone
  surrogates, which stand for no character.
-/
import RationalSpline.Json.Basic

namespace RationalSpline.Json

/-! ## §1. Blanks, digits and numbers. -/

/-- The text after blanks. -/
def skipBlanks (cs : List Char) : List Char :=
  cs.dropWhile fun c => c == ' ' || c == '\n' || c == '\t' || c == '\r'

/-- The number that decimal digits write. -/
def digitsValue (cs : List Char) : Nat := cs.foldl (fun n c => 10 * n + (c.toNat - 48)) 0

/-- At least one digit, and the rest. -/
def digits? (cs : List Char) : Option (List Char × List Char) :=
  match cs.takeWhile Char.isDigit with
  | [] => none
  | ds => some (ds, cs.dropWhile Char.isDigit)

/-- A whole part: 0, or digits that do not start with 0. -/
def wholePart? : List Char → Option (List Char × List Char)
  | '0' :: rest => some (['0'], rest)
  | cs => digits? cs

/-- The digits behind a point, none where there is no point. -/
def fractionPart? : List Char → Option (List Char × List Char)
  | '.' :: rest => digits? rest
  | cs => some ([], cs)

/-- The value of the digits of an exponent after its sign. -/
def exponentDigits? (negative : Bool) (cs : List Char) : Option (Int × List Char) :=
  (digits? cs).map fun (ds, rest) =>
    (if negative then -(digitsValue ds : Int) else digitsValue ds, rest)

/-- An exponent, if there is one. -/
def exponentPart? : List Char → Option (Option Int × List Char)
  | 'e' :: rest | 'E' :: rest =>
      let signed :=
        match rest with
        | '-' :: ds => exponentDigits? true ds
        | '+' :: ds => exponentDigits? false ds
        | ds => exponentDigits? false ds
      signed.map fun (value, rest) => (some value, rest)
  | cs => some (none, cs)

/-- A number after its sign. -/
def magnitude? (negative : Bool) (cs : List Char) : Option (Json × List Char) := do
  let (whole, rest) ← wholePart? cs
  let (fraction, rest) ← fractionPart? rest
  let (exponent, rest) ← exponentPart? rest
  let value : Decimal :=
    ⟨negative, digitsValue (whole ++ fraction), exponent.getD 0 - (fraction.length : Nat)⟩
  pure (.number value (fraction.isEmpty && exponent.isNone), rest)

/-- A number. -/
def number? : List Char → Option (Json × List Char)
  | '-' :: rest => magnitude? true rest
  | cs => magnitude? false cs

/-! ## §2. Strings. -/

/-- The value of a hexadecimal digit. -/
def hexValue? (c : Char) : Option Nat :=
  if c.isDigit then some (c.toNat - 48)
  else if 'a' ≤ c ∧ c ≤ 'f' then some (c.toNat - 87)
  else if 'A' ≤ c ∧ c ≤ 'F' then some (c.toNat - 55)
  else none

/-- Four hexadecimal digits. -/
def hexFour? : List Char → Option (Nat × List Char)
  | a :: b :: c :: d :: rest => do
      let a ← hexValue? a
      let b ← hexValue? b
      let c ← hexValue? c
      let d ← hexValue? d
      pure (((a * 16 + b) * 16 + c) * 16 + d, rest)
  | _ => none

/-- The character of a code unit, or of a pair of surrogates. -/
def unicode? (cs : List Char) : Option (Char × List Char) := do
  let (unit, rest) ← hexFour? cs
  -- a high surrogate stands for a character together with the low one after it
  if 0xD800 ≤ unit ∧ unit < 0xDC00 then
    match rest with
    | '\\' :: 'u' :: rest => do
        let (low, rest) ← hexFour? rest
        if 0xDC00 ≤ low ∧ low < 0xE000 then
          pure (Char.ofNat (0x10000 + (unit - 0xD800) * 0x400 + (low - 0xDC00)), rest)
        else none
    | _ => none
  else if 0xDC00 ≤ unit ∧ unit < 0xE000 then none
  else pure (Char.ofNat unit, rest)

/-- The character that an escape without digits stands for. -/
def simpleEscape? (c : Char) : Option Char :=
  match c with
  | '"' => some '"'
  | '\\' => some '\\'
  | '/' => some '/'
  | 'b' => some '\x08'
  | 'f' => some '\x0c'
  | 'n' => some '\n'
  | 'r' => some '\r'
  | 't' => some '\t'
  | _ => none

/-- The characters up to the closing quotation mark. -/
def characters? : Nat → List Char → Option (List Char × List Char)
  | 0, _ => none
  | _, [] => none
  | _, '"' :: rest => some ([], rest)
  | fuel + 1, '\\' :: 'u' :: rest => do
      let (c, rest) ← unicode? rest
      let (cs, rest) ← characters? fuel rest
      pure (c :: cs, rest)
  | fuel + 1, '\\' :: c :: rest => do
      let c ← simpleEscape? c
      let (cs, rest) ← characters? fuel rest
      pure (c :: cs, rest)
  | fuel + 1, c :: rest =>
      if c.toNat < 32 then none
      else do
        let (cs, rest) ← characters? fuel rest
        pure (c :: cs, rest)

/-- A string after its opening quotation mark. -/
def stringBody? (cs : List Char) : Option (String × List Char) :=
  (characters? (cs.length + 1) cs).map fun (cs, rest) => (String.ofList cs, rest)

/-- The text after the closing quotation mark, whatever characters come before. -/
def stringEnd? : Nat → List Char → Option (List Char)
  | 0, _ => none
  | _, [] => none
  | _, '"' :: rest => some rest
  | fuel + 1, '\\' :: 'u' :: rest => (hexFour? rest).bind fun (_, rest) => stringEnd? fuel rest
  | fuel + 1, '\\' :: c :: rest =>
      if (simpleEscape? c).isSome then stringEnd? fuel rest else none
  | fuel + 1, c :: rest => if c.toNat < 32 then none else stringEnd? fuel rest

/-- A string whose characters do not matter, read as the empty one. -/
def anyStringBody? (cs : List Char) : Option (String × List Char) :=
  (stringEnd? (cs.length + 1) cs).map fun rest => ("", rest)

/-! ## §3. Values. -/

/-- A fixed word. -/
def word? (word : String) (value : Json) (cs : List Char) : Option (Json × List Char) :=
  if word.toList.isPrefixOf cs then some (value, cs.drop word.length) else none

mutual

/-- The value at the front of a text without leading blanks; `body?` reads strings. -/
def valueWith? (body? : List Char → Option (String × List Char)) :
    Nat → List Char → Option (Json × List Char)
  | 0, _ => none
  | fuel + 1, cs =>
      match cs with
      | 'n' :: _ => word? "null" .null cs
      | 't' :: _ => word? "true" (.bool true) cs
      | 'f' :: _ => word? "false" (.bool false) cs
      | '"' :: rest => (body? rest).map fun (s, rest) => (.string s, rest)
      | '[' :: rest =>
          match skipBlanks rest with
          | ']' :: rest => some (.array [], rest)
          | rest => (itemsWith? body? fuel rest).map fun (items, rest) => (.array items, rest)
      | '\x7b' :: rest =>
          match skipBlanks rest with
          | '\x7d' :: rest => some (.object [], rest)
          | rest =>
              (membersWith? body? fuel rest).map fun (members, rest) => (.object members, rest)
      | _ => number? cs

/-- The items of an array from the next one to the closing bracket. -/
def itemsWith? (body? : List Char → Option (String × List Char)) :
    Nat → List Char → Option (List Json × List Char)
  | 0, _ => none
  | fuel + 1, cs => do
      let (item, rest) ← valueWith? body? fuel cs
      match skipBlanks rest with
      | ']' :: rest => pure ([item], rest)
      | ',' :: rest => do
          let (items, rest) ← itemsWith? body? fuel (skipBlanks rest)
          pure (item :: items, rest)
      | _ => none

/-- The members of an object from the next one to the closing brace. -/
def membersWith? (body? : List Char → Option (String × List Char)) :
    Nat → List Char → Option (List (String × Json) × List Char)
  | 0, _ => none
  | fuel + 1, cs =>
      match cs with
      | '"' :: rest => do
          let (name, rest) ← body? rest
          match skipBlanks rest with
          | ':' :: rest => do
              let (value, rest) ← valueWith? body? fuel (skipBlanks rest)
              match skipBlanks rest with
              | '\x7d' :: rest => pure ([(name, value)], rest)
              | ',' :: rest => do
                  let (members, rest) ← membersWith? body? fuel (skipBlanks rest)
                  pure ((name, value) :: members, rest)
              | _ => none
          | _ => none
      | _ => none

end

/-- The value at the front of a text, and what follows it. -/
def value? (cs : List Char) : Option (Json × List Char) :=
  valueWith? stringBody? (2 * cs.length + 2) (skipBlanks cs)

/-- What follows a value that nobody asks for. -/
def skipValue? (cs : List Char) : Option (List Char) :=
  (valueWith? anyStringBody? (2 * cs.length + 2) (skipBlanks cs)).map (·.2)

/-- Nothing but blanks. -/
def isBlank (cs : List Char) : Bool := (skipBlanks cs).isEmpty

/-- The value that a text holds. -/
def parse? (text : String) : Option Json :=
  match value? text.toList with
  | some (value, rest) => if isBlank rest then some value else none
  | none => none

end RationalSpline.Json
