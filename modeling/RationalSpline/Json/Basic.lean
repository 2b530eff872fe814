/-
  RationalSpline.Json.Basic
  ─────────────────────────
  JSON VALUES AND THEIR TEXT.

  A number keeps its sign, its digits and its exponent, so that the sign of zero
  and the difference between `2` and `2.0` survive reading.  Members of an object
  keep their order, repeated names included.
-/
import RationalSpline.Decimal.Basic

namespace RationalSpline

/-- A JSON value. -/
inductive Json where
  | null
  | bool (value : Bool)
  /-- A number; `whole` says that it is written without point and exponent. -/
  | number (value : Decimal) (whole : Bool)
  | string (value : String)
  | array (items : List Json)
  | object (members : List (String × Json))
  deriving Inhabited

namespace Json

/-! ## §1. Construction. -/

/-- A count. -/
def ofNat (n : Nat) : Json := .number (.ofNat n) true

/-- A rounded number. -/
def ofDecimal (d : Decimal) : Json := .number d false

/-! ## §2. Text. -/

/-- A hexadecimal digit. -/
def hexDigit (n : Nat) : Char := (Nat.toDigits 16 n).headD '0'

/-- A character inside quotation marks. -/
def escaped (c : Char) : List Char :=
  if c = '"' then ['\\', '"']
  else if c = '\\' then ['\\', '\\']
  else if c.toNat < 32 then
    ['\\', 'u', '0', '0', hexDigit (c.toNat / 16), hexDigit (c.toNat % 16)]
  else [c]

/-- A string in quotation marks. -/
def quoted (s : String) : String :=
  String.ofList ('"' :: s.toList.flatMap escaped ++ ['"'])

mutual

/-- The text of a value, without blanks. -/
def render : Json → String
  | .null => "null"
  | .bool value => if value then "true" else "false"
  | .number value _ => value.plain
  | .string value => quoted value
  | .array items => "[" ++ ",".intercalate (renderItems items) ++ "]"
  | .object members => "\x7b" ++ ",".intercalate (renderMembers members) ++ "\x7d"

/-- The texts of the items of an array. -/
def renderItems : List Json → List String
  | [] => []
  | item :: rest => render item :: renderItems rest

/-- The texts of the members of an object. -/
def renderMembers : List (String × Json) → List String
  | [] => []
  | (name, value) :: rest => (quoted name ++ ":" ++ render value) :: renderMembers rest

end

/-! ## §3. Readings. -/

/-- The value of a member, the first of several; `null` counts as absent. -/
def member? (value : Json) (name : String) : Option Json :=
  match value with
  | .object members =>
      match members.find? fun (n, _) => n == name with
      | some (_, .null) => none
      | some (_, found) => some found
      | none => none
  | _ => none

/-- A 64-bit count. -/
def count? : Json → Option Nat
  | .number ⟨false, n, _⟩ true => if n < 18446744073709551616 then some n else none
  | _ => none

/-- The items of an array. -/
def items? : Json → Option (List Json)
  | .array items => some items
  | _ => none

/-- The characters of a string. -/
def string? : Json → Option String
  | .string value => some value
  | _ => none

/-- A truth value. -/
def bool? : Json → Option Bool
  | .bool value => some value
  | _ => none

/-- All items of an array, read alike. -/
def listOf? {β : Type} (read : Json → Option β) (value : Json) : Option (List β) :=
  value.items?.bind fun items => items.mapM read

end Json

end RationalSpline
