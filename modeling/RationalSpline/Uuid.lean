/-
  RationalSpline.Uuid
  ───────────────────
  UNIVERSALLY UNIQUE IDENTIFIERS.

  An identifier is a 128-bit number.  It is written as 32 lower-case hexadecimal
  digits in groups of 8, 4, 4, 4 and 12.  It is read in that form, also within braces
  or after `urn:uuid:`, and as 32 digits without hyphens; letters may have either case.
-/
import RationalSpline.Json.Reader

namespace RationalSpline

/-- An identifier of 128 bits. -/
structure Uuid where
  /-- The identifier as a number. -/
  value : Nat
  deriving Repr, DecidableEq

namespace Uuid

/-- The sizes of the groups of digits. -/
def groups : List Nat := [8, 4, 4, 4, 12]

/-- The number that hexadecimal digits write. -/
def hexadecimal? (n : Nat) : List Char → Option Nat
  | [] => some n
  | c :: cs => (Json.hexValue? c).bind fun d => hexadecimal? (16 * n + d) cs

/-- The digits of groups separated by hyphens. -/
def ungroup? : List Nat → List Char → Option (List Char)
  | [], _ => none
  | [size], cs => if cs.length = size then some cs else none
  | size :: sizes, cs =>
      match cs.drop size with
      | '-' :: rest => (ungroup? sizes rest).map (cs.take size ++ ·)
      | _ => none

/-- The text without the braces or the name space around an identifier. -/
def unwrapped (cs : List Char) : List Char :=
  if cs.length = 38 ∧ cs.head? = some '\x7b' ∧ cs.getLast? = some '\x7d' then
    cs.tail.dropLast
  else if cs.length = 45 ∧ (cs.take 9).map Char.toLower = "urn:uuid:".toList then cs.drop 9
  else cs

/-- The identifier that a text writes. -/
def parse? (text : String) : Option Uuid :=
  let cs := text.toList
  -- the plain form has no hyphens, and nothing around it
  let digits := if cs.length = 32 then some cs else ungroup? groups (unwrapped cs)
  (digits.bind (hexadecimal? 0)).map .mk

/-- The digits of an identifier. -/
def digits (id : Uuid) : List Char :=
  let cs := Nat.toDigits 16 id.value
  List.replicate (32 - cs.length) '0' ++ cs

/-- Digits in groups separated by hyphens. -/
def grouped : List Nat → List Char → List Char
  | [], _ => []
  | [size], cs => cs.take size
  | size :: sizes, cs => cs.take size ++ '-' :: grouped sizes (cs.drop size)

/-- The text of an identifier. -/
def text (id : Uuid) : String := String.ofList (grouped groups id.digits)

end Uuid

end RationalSpline
