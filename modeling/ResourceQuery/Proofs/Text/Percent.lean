import ResourceQuery.Text.Percent

/-!
Percent escapes read back. The bytes of an encoded text are those of the text itself, whatever
characters are left plain, as long as the percent sign is not one of them.
-/

set_option autoImplicit false

namespace ResourceQuery.Text.Percent

/-- The bytes of a text in UTF-8. -/
def utf8 (cs : List Char) : List UInt8 :=
  cs.flatMap String.utf8EncodeChar

theorem utf8_cons (c : Char) (cs : List Char) :
    utf8 (c :: cs) = String.utf8EncodeChar c ++ utf8 cs :=
  List.flatMap_cons

theorem utf8_append (cs ds : List Char) : utf8 (cs ++ ds) = utf8 cs ++ utf8 ds :=
  List.flatMap_append

theorem hexValue?_hexDigit : ∀ n < 16, hexValue? (hexDigit n) = some n := by
  decide

theorem bytes_cons_of_ne {c : Char} (h : c ≠ '%') (rest : List Char) :
    bytes (c :: rest) = String.utf8EncodeChar c ++ bytes rest := by
  rw [bytes]
  intro _ _ _ heq
  exact absurd heq h

theorem bytes_escapeByte (b : UInt8) (rest : List Char) :
    bytes (escapeByte b ++ rest) = b :: bytes rest := by
  have hb : b.toNat < 256 := b.toNat_lt
  rw [escapeByte, List.cons_append, List.cons_append, List.singleton_append, bytes,
    hexValue?_hexDigit _ (by omega), hexValue?_hexDigit _ (by omega)]
  have hdigits : 16 * (b.toNat / 16) + b.toNat % 16 = b.toNat := by omega
  simp [hdigits]

theorem bytes_escape (c : Char) (rest : List Char) :
    bytes (escape c ++ rest) = String.utf8EncodeChar c ++ bytes rest := by
  rw [escape]
  induction String.utf8EncodeChar c with
  | nil => rfl
  | cons b bs ih =>
    rw [List.flatMap_cons, List.append_assoc, bytes_escapeByte, ih, List.cons_append]

theorem bytes_encode_append {plain : Char → Bool} (h : plain '%' = false) (cs rest : List Char) :
    bytes (encode plain cs ++ rest) = utf8 cs ++ bytes rest := by
  induction cs with
  | nil => rfl
  | cons c cs ih =>
    rw [encode, List.flatMap_cons, List.append_assoc, utf8_cons, List.append_assoc]
    split
    · next hc =>
      have hne : c ≠ '%' := by
        rintro rfl
        simp [h] at hc
      rw [List.singleton_append, bytes_cons_of_ne hne]
      exact congrArg (String.utf8EncodeChar c ++ ·) ih
    · rw [bytes_escape]
      exact congrArg (String.utf8EncodeChar c ++ ·) ih

theorem bytes_encode {plain : Char → Bool} (h : plain '%' = false) (cs : List Char) :
    bytes (encode plain cs) = utf8 cs := by
  have hbytes := bytes_encode_append h cs []
  rwa [List.append_nil, bytes, List.append_nil] at hbytes

theorem decode?_of_bytes {cs text : List Char} (h : bytes cs = utf8 text) :
    decode? cs = some text := by
  have hencode : ByteArray.mk (bytes cs).toArray = text.utf8Encode := by
    rw [h]
    ext1
    simp [List.utf8Encode, utf8]
  rw [decode?, hencode, List.utf8Decode?_utf8Encode]
  rfl

theorem bytes_append_of_plain {cs : List Char} (h : '%' ∉ cs) (rest : List Char) :
    bytes (cs ++ rest) = utf8 cs ++ bytes rest := by
  induction cs with
  | nil => rfl
  | cons c cs ih =>
    rw [List.mem_cons, not_or] at h
    rw [List.cons_append, bytes_cons_of_ne (Ne.symm h.1), ih h.2, utf8_cons, List.append_assoc]

/-- A text without percent signs stands for itself. -/
theorem decode?_of_plain {cs : List Char} (h : '%' ∉ cs) : decode? cs = some cs := by
  have hbytes := bytes_append_of_plain h []
  rw [List.append_nil] at hbytes
  exact decode?_of_bytes (hbytes.trans (List.append_nil _))

end ResourceQuery.Text.Percent
