import ResourceQuery.Expr.Printer
import ResourceQuery.Proofs.Expr.Shape
import ResourceQuery.Proofs.Number.Shortest
import ResourceQuery.Proofs.Text.Percent
import ResourceQuery.Proofs.Uuid

/-!
The characters of printed values. Whatever is no array is printed as one word: none of its
characters is a delimiter or a blank. All of them stand for themselves, except in strings, and only
numbers start with a sign.
-/

set_option autoImplicit false

namespace ResourceQuery

/-- Whether a value is a number that is printed with a sign in front. -/
def Value.isSigned : Value → Bool
  | .integer n => n.toInt < 0
  | .float (.infinite negative) | .float (.finite negative _ _) => negative
  | _ => false

namespace Printer


open Number (Binary64 Decimal)
open Number.Binary64 (IsNumeralChar isNumeralChar_of_digits isNumeralChar_signedDigits)
open Calendar (Date DateTime)
open Text (AllDigits)

theorem exists_ascii {c : Char} (h : c.toNat < 128) : ∃ n < 128, c = Char.ofNat n :=
  ⟨c.toNat, h, (Char.ofNat_toNat c).symm⟩

theorem toNat_lt_of_isDigit {c : Char} (h : c.isDigit = true) : c.toNat < 128 := by
  have hdigit : c.isDigit = (decide (48 ≤ c.toNat) && decide (c.toNat ≤ 57)) := rfl
  rw [hdigit, Bool.and_eq_true, decide_eq_true_eq, decide_eq_true_eq] at h
  omega

/-- Characters that all stand for themselves. -/
def Plain (cs : List Char) : Prop :=
  ∀ c ∈ cs, isPlain c = true

instance (cs : List Char) : Decidable (Plain cs) :=
  decidable_of_iff (cs.all isPlain = true) List.all_eq_true

theorem plain_nil : Plain [] :=
  List.forall_mem_nil _

theorem Plain.append {cs ds : List Char} (h : Plain cs) (h' : Plain ds) : Plain (cs ++ ds) :=
  List.forall_mem_append.2 ⟨h, h'⟩

theorem Plain.cons {c : Char} {cs : List Char} (h : isPlain c = true) (h' : Plain cs) :
    Plain (c :: cs) :=
  List.forall_mem_cons.2 ⟨h, h'⟩

theorem Plain.percent_not_mem {cs : List Char} (h : Plain cs) : '%' ∉ cs :=
  fun hmem ↦ Bool.noConfusion (h _ hmem)

theorem isPlain_of_isNumeralChar {c : Char} (h : IsNumeralChar c) : isPlain c = true ∧ c ≠ ':' := by
  obtain hdigit | hother := h
  · have hascii : ∀ n < 128, (Char.ofNat n).isDigit = true →
        isPlain (Char.ofNat n) = true ∧ Char.ofNat n ≠ ':' := by
      decide
    obtain ⟨n, hn, rfl⟩ := exists_ascii (toNat_lt_of_isDigit hdigit)
    exact hascii n hn hdigit
  · have hmarks : (['.', 'e', '-', '+'].all fun d ↦ isPlain d && d != ':') = true := by
      decide
    simpa using List.all_eq_true.1 hmarks c hother

theorem plain_of_numeral {cs : List Char} (h : ∀ c ∈ cs, IsNumeralChar c) :
    Plain cs ∧ ':' ∉ cs :=
  ⟨fun c hc ↦ (isPlain_of_isNumeralChar (h c hc)).1,
    fun hc ↦ (isPlain_of_isNumeralChar (h _ hc)).2 rfl⟩

theorem plain_of_digits {cs : List Char} (h : AllDigits cs) : Plain cs :=
  (plain_of_numeral (isNumeralChar_of_digits h)).1

theorem plain_sign (negative : Bool) : ∀ c ∈ (if negative then ['-'] else []), IsNumeralChar c := by
  intro c hc
  cases negative with
  | true =>
    rw [List.mem_singleton.1 hc]
    exact .inr (by decide)
  | false => cases hc

theorem isNumeralChar_finite {negative : Bool} {steps : Nat} (h : Binary64.Representable steps) :
    ∀ c ∈ Binary64.chars Value.floatLayout (.finite negative steps h), IsNumeralChar c :=
  List.forall_mem_append.2 ⟨plain_sign negative,
    (Binary64.isFractional_magnitudeChars Value.floatLayout h).chars⟩

theorem plain_floatChars (x : Binary64) : Plain (x.chars Value.floatLayout) := by
  cases x with
  | nan => exact (by decide : Plain "NaN".toList)
  | infinite negative =>
    exact (plain_of_numeral (plain_sign negative)).1.append (by decide : Plain "inf".toList)
  | finite negative steps h => exact (plain_of_numeral (isNumeralChar_finite h)).1

theorem plain_epochChars (x : Binary64) : Plain (epochChars x) := by
  unfold epochChars
  split
  · exact (plain_of_numeral (isNumeralChar_signedDigits _)).1
  · exact plain_floatChars x

theorem plain_decimalChars (d : Decimal) : Plain d.chars := by
  have hdigits := Text.allDigits_paddedDigits (d.scale + 1) d.coefficient
  unfold Decimal.chars
  extract_lets ds whole
  refine Plain.append (Plain.append (plain_of_numeral (plain_sign d.negative)).1
    (plain_of_digits fun c hc ↦ hdigits c (List.mem_of_mem_take hc))) ?_
  split
  · exact plain_nil
  · exact Plain.cons (by decide) (plain_of_digits fun c hc ↦ hdigits c (List.mem_of_mem_drop hc))

theorem plain_paddedDigits (width n : Nat) : Plain (Text.paddedDigits width n) :=
  plain_of_digits (Text.allDigits_paddedDigits width n)

theorem plain_dateChars (d : Date) : Plain d.chars := by
  have hyear : Plain (Date.yearChars d.year) := by
    unfold Date.yearChars
    split
    · exact plain_paddedDigits 4 _
    · refine Plain.cons ?_ (plain_paddedDigits 4 _)
      split <;> decide
  unfold Date.chars
  exact (hyear.append (.cons (by decide) (plain_paddedDigits 2 _))).append
    (.cons (by decide) (plain_paddedDigits 2 _))

theorem plain_dateTimeChars (t : DateTime) : Plain t.chars := by
  have hfraction : Plain (DateTime.fractionChars t.clockNanos) := by
    unfold DateTime.fractionChars
    split
    · exact plain_nil
    · split
      · exact .cons (by decide) (plain_paddedDigits 3 _)
      · split
        · exact .cons (by decide) (plain_paddedDigits 6 _)
        · exact .cons (by decide) (plain_paddedDigits 9 _)
  have hoffset : Plain (DateTime.offsetChars t.offset) := by
    unfold DateTime.offsetChars
    split
    · exact .cons (by decide) plain_nil
    · refine .append (.cons ?_ (plain_paddedDigits 2 _))
        (.cons (by decide) (plain_paddedDigits 2 _))
      split <;> decide
  rw [DateTime.chars_eq]
  exact (plain_dateChars t.date).append (.cons (by decide) ((plain_paddedDigits 2 _).append
    (.cons (by decide) ((plain_paddedDigits 2 _).append (.cons (by decide)
      ((plain_paddedDigits 2 _).append (hfraction.append hoffset)))))))

theorem plain_group (groups : List Nat) {ds : List Char} (h : Plain ds) :
    Plain (Uuid.group groups ds) := by
  induction groups generalizing ds with
  | nil => exact h
  | cons n groups ih =>
    rw [Uuid.group]
    exact .append (fun c hc ↦ h c (List.mem_of_mem_take hc))
      (.cons (by decide) (ih fun c hc ↦ h c (List.mem_of_mem_drop hc)))

theorem plain_toDigits (n : Nat) : Plain (Nat.toDigits 16 n) := by
  have hdigit : ∀ v < 16, isPlain (Nat.digitChar v) = true := by
    decide
  induction n using Nat.strongRecOn with
  | ind n ih =>
    by_cases h : n < 16
    · rw [Nat.toDigits_of_lt_base h]
      exact .cons (hdigit n h) plain_nil
    · rw [Nat.toDigits_of_base_le (by decide) (Nat.le_of_not_lt h)]
      exact (ih (n / 16) (by omega)).append
        (.cons (hdigit _ (Nat.mod_lt n (by decide))) plain_nil)

theorem plain_uuidChars (u : Uuid) : Plain u.chars :=
  plain_group _ ((plain_of_digits (Text.allDigits_replicate_zero _)).append (plain_toDigits _))

/-- Neither a delimiter nor a blank. -/
def IsWordChar (c : Char) : Prop :=
  Token.isDelimiter c = false ∧ Text.isBlank c = false

/-- A text that is read as one word. -/
structure IsWord (cs : List Char) : Prop where
  ne_nil : cs ≠ []
  chars : ∀ c ∈ cs, IsWordChar c

theorem isWordChar_of_isPlain {c : Char} (h : isPlain c = true) : IsWordChar c := by
  simp only [isPlain, Bool.and_eq_true, decide_eq_true_eq, Bool.not_eq_true'] at h
  obtain ⟨⟨⟨hlow, hhigh⟩, hdelimiter⟩, -⟩ := h
  refine ⟨hdelimiter, ?_⟩
  simp only [Text.isBlank, Bool.or_eq_false_iff, Bool.and_eq_false_iff, decide_eq_false_iff_not,
    beq_eq_false_iff_ne]
  omega

theorem Plain.isWordChar {cs : List Char} (h : Plain cs) : ∀ c ∈ cs, IsWordChar c :=
  fun c hc ↦ isWordChar_of_isPlain (h c hc)

theorem Plain.isWord {cs : List Char} (h : Plain cs) (hne : cs ≠ []) : IsWord cs :=
  ⟨hne, h.isWordChar⟩

theorem isWordChar_escape (c : Char) : ∀ d ∈ Text.Percent.escape c, IsWordChar d := by
  have hpercent : IsWordChar '%' := by
    unfold IsWordChar
    decide
  have hdigit : ∀ v < 16, isPlain (Text.Percent.hexDigit v) = true := by
    decide
  intro d hd
  rw [Text.Percent.escape, List.mem_flatMap] at hd
  obtain ⟨b, -, hd⟩ := hd
  have hb : b.toNat < 256 := b.toNat_lt
  simp only [Text.Percent.escapeByte, List.mem_cons, List.not_mem_nil, or_false] at hd
  obtain rfl | rfl | rfl := hd
  · exact hpercent
  · exact isWordChar_of_isPlain (hdigit _ (by omega))
  · exact isWordChar_of_isPlain (hdigit _ (by omega))

theorem isWordChar_encode (cs : List Char) :
    ∀ d ∈ Text.Percent.encode isPlain cs, IsWordChar d := by
  intro d hd
  rw [Text.Percent.encode, List.mem_flatMap] at hd
  obtain ⟨c, -, hd⟩ := hd
  split at hd
  · next hc =>
    rw [List.mem_singleton.1 hd]
    exact isWordChar_of_isPlain hc
  · exact isWordChar_escape c d hd

theorem isWordChar_escapeChars (cs : List Char) : ∀ d ∈ escapeChars cs, IsWordChar d := by
  unfold escapeChars
  split
  · split
    · exact List.forall_mem_append.2 ⟨isWordChar_escape _, isWordChar_encode _⟩
    · exact isWordChar_encode _
  · exact List.forall_mem_nil _

theorem exists_escape (c : Char) : ∃ rest, Text.Percent.escape c = '%' :: rest := by
  obtain ⟨b, bs, hbytes⟩ := List.exists_cons_of_ne_nil (@String.utf8EncodeChar_ne_nil c)
  rw [Text.Percent.escape, hbytes, List.flatMap_cons, Text.Percent.escapeByte]
  exact ⟨_, rfl⟩

/-- A sign in front of a text is escaped, so that the text does not start with one. -/
theorem head_escapeChars (c : Char) (cs : List Char) :
    ∃ d ds, escapeChars (c :: cs) = d :: ds ∧ Direction.ofSign? d = none := by
  obtain ⟨rest, hescape⟩ := exists_escape c
  rw [escapeChars]
  split
  · rw [hescape]
    exact ⟨'%', _, rfl, rfl⟩
  · next hsign =>
    rw [Text.Percent.encode, List.flatMap_cons, hescape]
    split
    · exact ⟨c, _, rfl, by simpa using hsign⟩
    · exact ⟨'%', _, rfl, rfl⟩

/-- The name of a tag starts with a letter. -/
theorem head_tagChars (tag : Tag) (cs : List Char) :
    ∃ d ds, tagChars tag cs = d :: ds ∧ Direction.ofSign? d = none := by
  cases tag <;> exact ⟨_, _, rfl, rfl⟩

theorem isWord_tagChars (tag : Tag) {cs : List Char} (h : ∀ c ∈ cs, IsWordChar c) :
    IsWord (tagChars tag cs) := by
  have hname : Plain (tag.name.toList ++ [':']) := by
    cases tag <;> decide
  obtain ⟨d, ds, hhead, -⟩ := head_tagChars tag cs
  refine ⟨hhead ▸ List.cons_ne_nil d ds, ?_⟩
  rw [tagChars, List.append_cons]
  exact List.forall_mem_append.2 ⟨hname.isWordChar, h⟩

/-- Where a text is printed without a tag, it is not empty. -/
theorem isWord_stringChars (text : String) :
    IsWord (stringChars text) ∧
      ∃ d ds, stringChars text = d :: ds ∧ Direction.ofSign? d = none := by
  rw [stringChars]
  split
  · exact ⟨isWord_tagChars _ (isWordChar_escapeChars _), head_tagChars _ _⟩
  · next h =>
    have hne : text.toList ≠ [] := by
      intro hnil
      refine h ?_
      rw [String.toList_eq_nil_iff.1 hnil]
      rfl
    obtain ⟨c, cs, hcons⟩ := List.exists_cons_of_ne_nil hne
    obtain ⟨d, ds, hhead, hsign⟩ := head_escapeChars c cs
    rw [hcons, hhead]
    exact ⟨⟨List.cons_ne_nil d ds, hhead ▸ isWordChar_escapeChars _⟩, d, ds, rfl, hsign⟩

/-- What a leaf is printed as starts with a sign only where it is a number below zero. -/
structure LeafWord (v : Value) (cs : List Char) : Prop where
  word : IsWord cs
  signed : v.isSigned = true → ∃ c rest, cs = '-' :: c :: rest
  unsigned : v.isSigned = false → ∃ c rest, cs = c :: rest ∧ Direction.ofSign? c = none

theorem leafWord_unsigned {v : Value} {cs : List Char} (hword : IsWord cs)
    (hv : v.isSigned = false) (hhead : ∃ c rest, cs = c :: rest ∧ Direction.ofSign? c = none) :
    LeafWord v cs :=
  ⟨hword, fun hsigned ↦ absurd hsigned (Bool.eq_false_iff.1 hv), fun _ ↦ hhead⟩

theorem ofSign?_of_isDigit {c : Char} (h : c.isDigit = true) : Direction.ofSign? c = none := by
  unfold Direction.ofSign?
  split
  · next heq =>
    rw [heq] at h
    cases h
  · split
    · next heq =>
      rw [heq] at h
      cases h
    · rfl

/-- A sign, where there is one, and text that starts with a digit. -/
theorem leafWord_of_sign {v : Value} {c : Char} {rest : List Char} (negative : Bool)
    (hc : c.isDigit = true ∨ Direction.ofSign? c = none)
    (hplain : Plain ((if negative then ['-'] else []) ++ c :: rest)) (hv : v.isSigned = negative) :
    LeafWord v ((if negative then ['-'] else []) ++ c :: rest) := by
  refine ⟨hplain.isWord (by simp), ?_, ?_⟩
  · intro hsigned
    rw [hv] at hsigned
    rw [hsigned]
    exact ⟨c, rest, rfl⟩
  · intro hunsigned
    rw [hv] at hunsigned
    rw [hunsigned]
    exact ⟨c, rest, rfl, hc.elim ofSign?_of_isDigit id⟩

theorem leafWord_floatChars (x : Binary64) : LeafWord (.float x) (x.chars Value.floatLayout) := by
  have hplain := plain_floatChars x
  cases x with
  | nan => exact leafWord_unsigned (hplain.isWord (by decide)) rfl ⟨_, _, rfl, rfl⟩
  | infinite negative => exact leafWord_of_sign negative (.inr rfl) hplain rfl
  | finite negative steps h =>
    obtain ⟨c, rest, hhead, hc⟩ :=
      (Binary64.isFractional_magnitudeChars Value.floatLayout h).head
    rw [Binary64.chars, hhead] at hplain ⊢
    exact leafWord_of_sign negative (.inl hc) hplain rfl

/-- Whatever is no array is printed as one word. -/
theorem leafWord_valueChars {v : Value} (h : v.IsLeaf) :
    LeafWord v (valueChars v) := by
  cases v with
  | null => exact leafWord_unsigned (Plain.isWord (by decide) (by decide)) rfl ⟨_, _, rfl, rfl⟩
  | boolean b =>
    cases b with
    | true => exact leafWord_unsigned (Plain.isWord (by decide) (by decide)) rfl ⟨_, _, rfl, rfl⟩
    | false => exact leafWord_unsigned (Plain.isWord (by decide) (by decide)) rfl ⟨_, _, rfl, rfl⟩
  | integer n =>
    obtain ⟨c, rest, hdigits⟩ := List.exists_cons_of_ne_nil (Text.digits_ne_nil n.toInt.natAbs)
    have hc : c.isDigit = true := Text.allDigits_digits _ c (hdigits ▸ List.mem_cons_self)
    have hplain := (plain_of_numeral (isNumeralChar_signedDigits n.toInt)).1
    have htext : valueChars (.integer n) = Text.signedDigits n.toInt := rfl
    rw [Text.signedDigits_eq, hdigits] at hplain htext
    rw [htext]
    exact leafWord_of_sign _ (.inl hc) hplain rfl
  | float x => exact leafWord_floatChars x
  | string text =>
    obtain ⟨hword, hhead⟩ := isWord_stringChars text
    exact leafWord_unsigned hword rfl hhead
  | decimal d =>
    exact leafWord_unsigned (isWord_tagChars _ (plain_decimalChars d).isWordChar) rfl
      (head_tagChars _ _)
  | date d =>
    exact leafWord_unsigned (isWord_tagChars _ (plain_dateChars d).isWordChar) rfl
      (head_tagChars _ _)
  | dateTime t =>
    exact leafWord_unsigned (isWord_tagChars _ (plain_dateTimeChars t).isWordChar) rfl
      (head_tagChars _ _)
  | epoch x =>
    exact leafWord_unsigned (isWord_tagChars _ (plain_epochChars x).isWordChar) rfl
      (head_tagChars _ _)
  | uuid u =>
    exact leafWord_unsigned (isWord_tagChars _ (plain_uuidChars u).isWordChar) rfl
      (head_tagChars _ _)
  | array items => exact absurd rfl (h items)
  | object fields =>
    obtain ⟨hword, hhead⟩ := isWord_stringChars ((Value.object fields).toJson.toText .compact)
    exact leafWord_unsigned hword rfl hhead

end Printer

end ResourceQuery
