import ResourceQuery.Proofs.Detection
import ResourceQuery.Proofs.Except
import ResourceQuery.Proofs.Expr.Words
import ResourceQuery.Proofs.Number.Decimal

/-!
The words that values are printed as, resolved again. A tag in front decides alone how the rest is
read; without one the value is detected from its text, and the printer leaves the tag out only where
that finds the value that it prints.
-/

set_option autoImplicit false

namespace ResourceQuery

open Number (Binary64 Decimal)
open Calendar (Date DateTime)
open Text (AllDigits)

namespace Literal

theorem splitColon?_of_not_mem {cs : List Char} (h : ':' ∉ cs) :
    splitColon? (String.ofList cs) = none := by
  have hdrop : cs.dropWhile (· != ':') = [] := by
    rw [List.dropWhile_eq_nil_iff]
    intro c hc
    have hne : c ≠ ':' := fun heq ↦ h (heq ▸ hc)
    simpa using hne
  rw [splitColon?, String.toList_ofList, hdrop]

theorem splitColon?_append {name : List Char} (h : ':' ∉ name) (rest : List Char) :
    splitColon? (String.ofList (name ++ ':' :: rest)) =
      some (String.ofList name, String.ofList rest) := by
  have hname : ∀ c ∈ name, (c != ':') = true := by
    intro c hc
    have hne : c ≠ ':' := fun heq ↦ h (heq ▸ hc)
    simpa using hne
  rw [splitColon?, String.toList_ofList, List.dropWhile_append_of_pos hname,
    List.takeWhile_append_of_pos hname, List.dropWhile_cons_of_neg (by simp),
    List.takeWhile_cons_of_neg (by simp), List.append_nil]

theorem ofName?_name (tag : Tag) : Tag.ofName? tag.name = some tag := by
  cases tag <;> decide

theorem tagged?_tagChars (tag : Tag) (cs : List Char) :
    tagged? (String.ofList (Printer.tagChars tag cs)) = some (tag, String.ofList cs) := by
  have hname : ':' ∉ tag.name.toList := by
    cases tag <;> decide
  rw [tagged?, Printer.tagChars, splitColon?_append hname, Option.bind_some,
    String.ofList_toList]
  dsimp only
  rw [ofName?_name, Option.map_some]

theorem decode_of {raw text : List Char} (h : Text.Percent.decode? raw = some text) :
    decode (String.ofList raw) = .ok (String.ofList text) := by
  rw [decode, String.toList_ofList, h]

theorem resolve_of_tagged {raw cs : List Char} {tag : Tag}
    (h : Text.Percent.decode? raw = some (Printer.tagChars tag cs)) :
    resolve (String.ofList raw) = tag.resolve (String.ofList cs) := by
  rw [resolve, decode_of h, ok_bind, tagged?_tagChars]

theorem resolve_of_untagged {raw cs : List Char} (h : Text.Percent.decode? raw = some cs)
    (htag : tagged? (String.ofList cs) = none) :
    resolve (String.ofList raw) = .ok (detect (String.ofList cs)) := by
  rw [resolve, decode_of h, ok_bind, htag]
  rfl

/-- A text that is taken for a string is that string. -/
theorem detect_eq_string {text s : String} (h : detect text = .string s) : s = text := by
  have hdetects := detects_detect text
  rw [h] at hdetects
  cases hdetects
  rfl

/-- Text that starts like no word of the language is a number or a string. -/
theorem detect_of_head {c : Char} (rest : List Char) (hc : c ∉ ['t', 'f', 'n']) :
    detect (String.ofList (c :: rest)) =
      (integer? (String.ofList (c :: rest)) <|> float? (String.ofList (c :: rest))).getD
        (.string (String.ofList (c :: rest))) := by
  have hheads : ∀ word ∈ keywords, ∃ d ds, word.toList = d :: ds ∧ d ∈ ['t', 'f', 'n'] := by
    rw [keywords, List.forall_mem_cons, List.forall_mem_cons, List.forall_mem_singleton]
    exact ⟨⟨_, _, rfl, by decide⟩, ⟨_, _, rfl, by decide⟩, ⟨_, _, rfl, by decide⟩⟩
  refine detect_of_not_keyword fun hword ↦ hc ?_
  obtain ⟨d, ds, htext, hd⟩ := hheads _ hword
  rw [String.toList_ofList] at htext
  rwa [(List.cons.inj htext).1]

theorem bytes_escapeChars (cs : List Char) :
    Text.Percent.bytes (Printer.escapeChars cs) = Text.Percent.utf8 cs := by
  have hencode : ∀ cs, Text.Percent.bytes (Text.Percent.encode Printer.isPlain cs) =
      Text.Percent.utf8 cs :=
    Text.Percent.bytes_encode rfl
  rcases cs with _ | ⟨c, cs⟩
  · rfl
  · rw [Printer.escapeChars]
    split
    · rw [Text.Percent.bytes_escape, hencode, Text.Percent.utf8_cons]
    · exact hencode _

theorem decode?_escapeChars (cs : List Char) :
    Text.Percent.decode? (Printer.escapeChars cs) = some cs :=
  Text.Percent.decode?_of_bytes (bytes_escapeChars cs)

/-- The name of a tag stands for itself. -/
theorem decode?_tagChars (tag : Tag) {raw cs : List Char}
    (h : Text.Percent.bytes raw = Text.Percent.utf8 cs) :
    Text.Percent.decode? (Printer.tagChars tag raw) = some (Printer.tagChars tag cs) := by
  have hname : '%' ∉ tag.name.toList ++ [':'] := by
    cases tag <;> decide
  refine Text.Percent.decode?_of_bytes ?_
  rw [Printer.tagChars, List.append_cons, Text.Percent.bytes_append_of_plain hname, h,
    ← Text.Percent.utf8_append, ← List.append_cons]
  rfl

/-- A string is read back from its word, whatever characters it has. -/
theorem resolve_stringChars (text : String) :
    resolve (String.ofList (Printer.stringChars text)) = .ok (.string text) := by
  rw [Printer.stringChars]
  split
  · rw [resolve_of_tagged (decode?_tagChars _ (bytes_escapeChars _)), String.ofList_toList]
    rfl
  · next h =>
    simp only [Printer.needsTag, Bool.or_eq_true, decide_eq_true_eq, not_or] at h
    obtain ⟨⟨-, htag⟩, hdetect⟩ := h
    have huntagged : tagged? text = none := by simpa using htag
    have hdetected : detect text = .string text := by
      cases hv : detect text with
      | string s => rw [detect_eq_string hv]
      | _ =>
        rw [hv] at hdetect
        exact absurd rfl hdetect
    rw [resolve_of_untagged (decode?_escapeChars text.toList), String.ofList_toList, hdetected]
    rw [String.ofList_toList]
    exact huntagged

theorem resolve_tagChars (tag : Tag) {cs : List Char} (h : Printer.Plain cs) :
    resolve (String.ofList (Printer.tagChars tag cs)) = tag.resolve (String.ofList cs) := by
  have hname : Printer.Plain (tag.name.toList ++ [':']) := by
    cases tag <;> decide
  have hplain : Printer.Plain (Printer.tagChars tag cs) := by
    rw [Printer.tagChars, List.append_cons]
    exact hname.append h
  exact resolve_of_tagged (Text.Percent.decode?_of_plain hplain.percent_not_mem)

theorem resolve_numeral {cs : List Char} (h : ∀ c ∈ cs, Number.Binary64.IsNumeralChar c)
    (hne : cs ≠ []) :
    resolve (String.ofList cs) =
      .ok ((integer? (String.ofList cs) <|> float? (String.ofList cs)).getD
        (.string (String.ofList cs))) := by
  obtain ⟨hplain, hcolon⟩ := Printer.plain_of_numeral h
  obtain ⟨c, rest, rfl⟩ := List.exists_cons_of_ne_nil hne
  have hhead : c ∉ ['t', 'f', 'n'] := by
    have hletters :
        (['t', 'f', 'n'].all fun d ↦ !d.isDigit && d ∉ ['.', 'e', '-', '+']) = true := by
      decide
    intro hc
    have hletter := List.all_eq_true.1 hletters c hc
    rw [Bool.and_eq_true, Bool.not_eq_true', decide_eq_true_eq] at hletter
    obtain hdigit | hmark := h c List.mem_cons_self
    · rw [hletter.1] at hdigit
      cases hdigit
    · exact hletter.2 hmark
  rw [resolve_of_untagged (Text.Percent.decode?_of_plain hplain.percent_not_mem),
    detect_of_head rest hhead]
  rw [tagged?, splitColon?_of_not_mem hcolon, Option.bind_none]

theorem resolve_integer (n : Int64) : resolve (Value.integer n).toText = .ok (.integer n) := by
  have hne : Text.signedDigits n.toInt ≠ [] := by
    unfold Text.signedDigits
    split
    · exact List.cons_ne_nil _ _
    · exact Text.digits_ne_nil _
  have hinteger : integer? (String.ofList (Text.signedDigits n.toInt)) = some (.integer n) := by
    rw [integer?, String.toList_ofList]
    exact congrArg (Option.map Value.integer) (Text.readInt64?_int64Digits n)
  have hread := resolve_numeral (Number.Binary64.isNumeralChar_signedDigits n.toInt) hne
  rw [hinteger] at hread
  exact hread

theorem integer?_fractional {cs : List Char} (h : Number.Binary64.IsFractional cs)
    (negative : Bool) :
    integer? (String.ofList ((if negative then ['-'] else []) ++ cs)) = none := by
  obtain ⟨c, rest, rfl, hc⟩ := h.head
  obtain ⟨d, hd, hother⟩ := h.other
  have hread : Text.readInt? ((if negative then ['-'] else []) ++ c :: rest) = none := by
    rw [Text.readInt?, Number.Binary64.splitSign_signed hc]
    refine if_pos ?_
    rw [Bool.or_eq_true, Bool.not_eq_true', List.all_eq_false]
    exact .inr ⟨d, hd, Bool.eq_false_iff.1 hother⟩
  rw [integer?, String.toList_ofList, Text.readInt64?, hread]
  rfl

theorem resolve_float {x : Binary64} (hfinite : x.isFinite = true) :
    resolve (Value.float x).toText = .ok (.float x) := by
  obtain ⟨negative, steps, h, rfl⟩ : ∃ negative steps h, x = .finite negative steps h := by
    cases x with
    | finite negative steps h => exact ⟨negative, steps, h, rfl⟩
    | _ => cases hfinite
  have hshape := Binary64.isFractional_magnitudeChars Value.floatLayout h
  obtain ⟨c, rest, hhead, -⟩ := hshape.head
  have hne : Binary64.chars Value.floatLayout (.finite negative steps h) ≠ [] := by
    rw [Binary64.chars, hhead]
    simp
  have hinteger : integer? (String.ofList
      (Binary64.chars Value.floatLayout (.finite negative steps h))) = none :=
    integer?_fractional hshape negative
  have hfloat : float? (String.ofList
      (Binary64.chars Value.floatLayout (.finite negative steps h))) =
        some (.float (.finite negative steps h)) := by
    rw [float?, String.toList_ofList, Binary64.read?_chars, Option.map_some]
  have hread := resolve_numeral (Printer.isNumeralChar_finite h) hne
  rw [hinteger, hfloat] at hread
  exact hread

/-- Letters without a tag are what they are detected as. -/
theorem resolve_letters {cs : List Char} (hplain : Printer.Plain cs) (hcolon : ':' ∉ cs) :
    resolve (String.ofList cs) = .ok (detect (String.ofList cs)) := by
  rw [resolve_of_untagged (Text.Percent.decode?_of_plain hplain.percent_not_mem)]
  rw [tagged?, splitColon?_of_not_mem hcolon, Option.bind_none]

theorem resolve_null : resolve Value.null.toText = .ok .null :=
  @resolve_letters "null".toList (by decide) (by decide)

theorem resolve_boolean (b : Bool) : resolve (Value.boolean b).toText = .ok (.boolean b) := by
  cases b with
  | true => exact @resolve_letters "true".toList (by decide) (by decide)
  | false => exact @resolve_letters "false".toList (by decide) (by decide)

/-- A number that is not finite is printed as letters, and these are read as a string. -/
theorem resolve_not_finite {x : Binary64} (h : x.isFinite = false) :
    ∃ text, resolve (Value.float x).toText = .ok (.string text) := by
  cases x with
  | nan => exact ⟨_, @resolve_letters "NaN".toList (by decide) (by decide)⟩
  | infinite negative =>
    cases negative with
    | true => exact ⟨_, @resolve_letters "-inf".toList (by decide) (by decide)⟩
    | false => exact ⟨_, @resolve_letters "inf".toList (by decide) (by decide)⟩
  | finite => cases h

theorem resolve_read {tag : Tag} {cs : List Char} {v : Value} (h : Printer.Plain cs)
    (hread : tag.read? (String.ofList cs) = some v) :
    resolve (String.ofList (Printer.tagChars tag cs)) = .ok v := by
  rw [resolve_tagChars tag h, Tag.resolve, hread]

theorem resolve_unread {tag : Tag} {cs : List Char} (h : Printer.Plain cs)
    (hread : tag.read? (String.ofList cs) = none) :
    resolve (String.ofList (Printer.tagChars tag cs)) =
      .error (.conversion tag (String.ofList cs)) := by
  rw [resolve_tagChars tag h, Tag.resolve, hread]

theorem resolve_decimal (d : Decimal) :
    resolve (Value.decimal d).toText = .ok (.decimal d.unsignedZero) := by
  refine resolve_read (Printer.plain_decimalChars d) ?_
  rw [Tag.read?, String.toList_ofList, Decimal.read?_chars, Option.map_some]

theorem resolve_date (d : Date) : resolve (Value.date d).toText = .ok (.date d) := by
  refine resolve_read (Printer.plain_dateChars d) ?_
  rw [Tag.read?, String.toList_ofList, Date.read?_chars, Option.map_some]

theorem resolve_uuid (u : Uuid) : resolve (Value.uuid u).toText = .ok (.uuid u) := by
  refine resolve_read (Printer.plain_uuidChars u) ?_
  rw [Tag.read?, String.toList_ofList, Uuid.read?_chars, Option.map_some]

theorem resolve_dateTime {t : DateTime} (h : t.Regular)
    (htext : t.offset ≠ 0 ∨ (0 ≤ t.date.year ∧ t.date.year ≤ 9999)) :
    resolve (Value.dateTime t).toText = .ok (.dateTime t) := by
  refine resolve_read (Printer.plain_dateTimeChars t) ?_
  rw [Tag.read?, String.toList_ofList, DateTime.read?_chars h htext, Option.map_some]

theorem resolve_dateTime_of_signed_year {t : DateTime}
    (htext : ¬ (t.offset ≠ 0 ∨ (0 ≤ t.date.year ∧ t.date.year ≤ 9999))) :
    ∃ e, resolve (Value.dateTime t).toText = .error e := by
  rw [not_or, not_not] at htext
  refine ⟨_, resolve_unread (Printer.plain_dateTimeChars t) ?_⟩
  rw [Tag.read?, String.toList_ofList, DateTime.read?_chars_of_signed_year htext.1 htext.2,
    Option.map_none]

/-- Seconds are read back as an equal number, whether they are written with a fraction or without.
-/
theorem resolve_epoch {x : Binary64} (h : x.isFinite = true) :
    ∃ y, resolve (Value.epoch x).toText = .ok (.epoch y) ∧ x.equal y = true := by
  have hread : ∃ y, Binary64.read? (Printer.epochChars x) = some y ∧ x.equal y = true := by
    unfold Printer.epochChars
    split
    · next hwhole =>
      rw [Bool.and_eq_true] at hwhole
      exact Binary64.equal_read?_truncate hwhole.1
    · cases x with
      | finite negative steps hsteps =>
        exact ⟨_, Binary64.read?_chars _ negative hsteps, Binary64.equal_self rfl⟩
      | _ => cases h
  obtain ⟨y, hread, hequal⟩ := hread
  refine ⟨y, resolve_read (Printer.plain_epochChars x) ?_, hequal⟩
  rw [Tag.read?, String.toList_ofList, hread, Option.map_some]

theorem resolve_epoch_not_finite {x : Binary64} (h : x.isFinite = false) :
    ∃ e, resolve (Value.epoch x).toText = .error e := by
  refine ⟨_, resolve_unread (Printer.plain_epochChars x) ?_⟩
  have hread : Binary64.read? (x.chars Value.floatLayout) = none := by
    cases x with
    | nan => rfl
    | infinite negative => cases negative <;> rfl
    | finite => cases h
  have hwhole : x.isWhole = false := by
    cases x with
    | finite => cases h
    | _ => rfl
  rw [Tag.read?, String.toList_ofList, Printer.epochChars, hwhole, Bool.false_and, if_neg (by simp),
    hread, Option.map_none]

end Literal

end ResourceQuery
