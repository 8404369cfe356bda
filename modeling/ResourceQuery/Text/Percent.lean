import ResourceQuery.Text.Blank

/-!
Percent escapes. A character is escaped as the bytes of its UTF-8 form, each written as `%` and two
hexadecimal digits. Decoding replaces every such escape by its byte, leaves a `%` that does not
start one as it stands, and asks that the bytes be UTF-8 again.
-/

set_option autoImplicit false

namespace ResourceQuery.Text.Percent

def hexDigit (n : Nat) : Char :=
  if n < 10 then Char.ofNat ('0'.toNat + n) else Char.ofNat ('A'.toNat + (n - 10))

def hexValue? (c : Char) : Option Nat :=
  if '0' ≤ c ∧ c ≤ '9' then some (c.toNat - '0'.toNat)
  else if 'A' ≤ c ∧ c ≤ 'F' then some (c.toNat - 'A'.toNat + 10)
  else if 'a' ≤ c ∧ c ≤ 'f' then some (c.toNat - 'a'.toNat + 10)
  else none

def escapeByte (b : UInt8) : List Char :=
  ['%', hexDigit (b.toNat / 16), hexDigit (b.toNat % 16)]

def escape (c : Char) : List Char :=
  (String.utf8EncodeChar c).flatMap escapeByte

/-- Escapes the characters that `plain` does not admit. -/
def encode (plain : Char → Bool) (cs : List Char) : List Char :=
  cs.flatMap fun c ↦ if plain c then [c] else escape c

/-- The bytes that a text stands for once its escapes are replaced. -/
def bytes : List Char → List UInt8
  | '%' :: high :: low :: rest =>
    match hexValue? high, hexValue? low with
    | some h, some l => UInt8.ofNat (16 * h + l) :: bytes rest
    | _, _ => '%'.toUInt8 :: bytes (high :: low :: rest)
  | c :: rest => String.utf8EncodeChar c ++ bytes rest
  | [] => []

def decode? (cs : List Char) : Option (List Char) :=
  (ByteArray.mk (bytes cs).toArray).utf8Decode?.map Array.toList

end ResourceQuery.Text.Percent
