import Mathlib.Data.List.Forall2
import ResourceQuery.Proofs.Expr.Words
import ResourceQuery.Proofs.Value.Parts

/-!
The tokens of printed call trees. A printed part is read as its own tokens whatever follows it, if
only what follows is a delimiter or the end of the text; so the tokens of a tree are put together
from those of its parts, in the order in which they are printed.
-/

set_option autoImplicit false

namespace ResourceQuery

/-- What goes over to parts with a separator between them goes over to all parts. -/
theorem intercalate_of_append {α β : Type} {R : List α → List β → Prop} {d : α} {token : β}
    (hnil : R [] []) (happend : ∀ {cs ds ts us}, R cs ts → R ds us →
      R (cs ++ d :: ds) (ts ++ token :: us)) {parts : List (List α)} {tokens : List (List β)}
    (h : List.Forall₂ R parts tokens) :
    R ([d].intercalate parts) ([token].intercalate tokens) := by
  induction h with
  | nil => exact hnil
  | cons hfirst hmore ih =>
    cases hmore with
    | nil =>
      rw [List.intercalate_singleton, List.intercalate_singleton]
      exact hfirst
    | cons =>
      rw [List.intercalate_cons_cons, List.intercalate_cons_cons, List.append_assoc,
        List.append_assoc]
      exact happend hfirst ih

namespace Lexeme

/-- What a text is read as, wherever it starts. -/
def Lexes (cs : List Char) (ts : List Token) : Prop :=
  ∀ position, (listFrom position cs).map Lexeme.token = ts

/-- A word ends at a delimiter or at the end of the text. -/
def EndsWord (rest : List Char) : Prop :=
  ∀ c ∈ rest.head?, Token.isDelimiter c = true

theorem endsWord_nil : EndsWord [] := by
  rintro _ ⟨⟩

theorem lexes_nil : Lexes [] [] := by
  intro position
  rw [listFrom]
  rfl

theorem listFrom_of_next? {position behind : Nat} {cs rest : List Char} {lexeme : Lexeme}
    (h : next? position cs = some (lexeme, behind, rest)) :
    listFrom position cs = lexeme :: listFrom behind rest := by
  rw [listFrom]
  split
  · next hnone =>
    rw [h] at hnone
    cases hnone
  · next hsome =>
    rw [h] at hsome
    cases hsome
    rfl

theorem isBlank_of_delimiter {c : Char} {token : Token} (h : Token.ofDelimiter? c = some token) :
    Text.isBlank c = false := by
  unfold Token.ofDelimiter? at h
  split at h
  case h_7 => cases h
  all_goals decide

theorem Lexes.delimiter {c : Char} {token : Token} {rest : List Char} {ts : List Token}
    (hc : Token.ofDelimiter? c = some token) (h : Lexes rest ts) :
    Lexes (c :: rest) (token :: ts) := by
  intro position
  have hnext : next? position (c :: rest) = some (⟨token, position⟩, position + 1, rest) := by
    rw [next?, isBlank_of_delimiter hc, if_neg (by decide), hc]
  rw [listFrom_of_next? hnext, List.map_cons, h]

theorem trimRight_of_not_blank {cs : List Char} (h : ∀ c ∈ cs, Text.isBlank c = false) :
    Text.trimRight cs = cs := by
  induction cs with
  | nil => rfl
  | cons c cs ih =>
    rw [Text.trimRight_cons_of_not_blank (h c List.mem_cons_self),
      ih fun d hd ↦ h d (List.mem_cons_of_mem c hd)]

/-- A word is read as a whole, wherever it stands. -/
theorem next?_append_word {cs rest : List Char} (hcs : Printer.IsWord cs) (hend : EndsWord rest)
    (position : Nat) :
    next? position (cs ++ rest) =
      some (⟨.word (String.ofList cs), position⟩, position + cs.length, rest) := by
  obtain ⟨c, tail, rfl⟩ := List.exists_cons_of_ne_nil hcs.ne_nil
  obtain ⟨hdelimiter, hblank⟩ := hcs.chars c List.mem_cons_self
  have hrun : run (c :: tail ++ rest) = c :: tail := by
    rw [run, List.takeWhile_append_of_pos]
    · rcases rest with _ | ⟨d, rest⟩
      · simp
      · have hd := hend d rfl
        simp [hd]
    · intro d hd
      simp [(hcs.chars d hd).1]
  have htrim : Text.trimRight (c :: tail) = c :: tail :=
    trimRight_of_not_blank fun d hd ↦ (hcs.chars d hd).2
  have hnone : Token.ofDelimiter? c = none := by simpa [Token.isDelimiter] using hdelimiter
  rw [List.cons_append, next?, hblank, if_neg (by decide), hnone]
  dsimp only
  rw [← List.cons_append, hrun, htrim, List.drop_left]

theorem Lexes.word {cs rest : List Char} {ts : List Token} (hcs : Printer.IsWord cs)
    (hend : EndsWord rest) (h : Lexes rest ts) :
    Lexes (cs ++ rest) (.word (String.ofList cs) :: ts) := by
  intro position
  rw [listFrom_of_next? (next?_append_word hcs hend position), List.map_cons, h]

end Lexeme

namespace Printer

open Lexeme (Lexes EndsWord)

/-- Printed characters are read as these tokens in front of whatever ends a word. -/
def Prints (cs : List Char) (ts : List Token) : Prop :=
  ∀ rest us, EndsWord rest → Lexes rest us → Lexes (cs ++ rest) (ts ++ us)

theorem prints_word {cs : List Char} (h : IsWord cs) : Prints cs [.word (String.ofList cs)] :=
  fun _ _ hend hrest ↦ hrest.word h hend

theorem Prints.delimiter {c : Char} {token : Token} {cs : List Char} {ts : List Token}
    (hc : Token.ofDelimiter? c = some token) (h : Prints cs ts) : Prints (c :: cs) (token :: ts) :=
  fun rest us hend hrest ↦ (h rest us hend hrest).delimiter hc

theorem endsWord_of_delimiter {c : Char} {token : Token} (hc : Token.ofDelimiter? c = some token)
    (rest : List Char) : EndsWord (c :: rest) := by
  rintro _ ⟨⟩
  rw [Token.isDelimiter, hc]
  rfl

theorem Prints.append_delimiter {c : Char} {token : Token} {cs ds : List Char} {ts us : List Token}
    (hc : Token.ofDelimiter? c = some token) (h : Prints cs ts) (h' : Prints ds us) :
    Prints (cs ++ c :: ds) (ts ++ token :: us) := by
  intro rest vs hend hrest
  rw [List.append_assoc, List.append_assoc, List.cons_append, List.cons_append]
  exact h _ _ (endsWord_of_delimiter hc _) ((h' rest vs hend hrest).delimiter hc)

theorem prints_nil : Prints [] [] :=
  fun _ _ _ hrest ↦ hrest

theorem prints_intercalate {parts : List (List Char)} {tokens : List (List Token)}
    (h : List.Forall₂ Prints parts tokens) :
    Prints ([','].intercalate parts) ([.comma].intercalate tokens) :=
  intercalate_of_append prints_nil (fun hcs hds ↦ hcs.append_delimiter rfl hds) h

def tupleTokens (parts : List (List Token)) : List Token :=
  .leftParen :: [.comma].intercalate parts ++ [.rightParen]

theorem prints_parens {parts : List (List Char)} {tokens : List (List Token)}
    (h : List.Forall₂ Prints parts tokens) :
    Prints ([','].intercalate parts ++ [')']) ([.comma].intercalate tokens ++ [.rightParen]) :=
  (prints_intercalate h).append_delimiter rfl prints_nil

theorem prints_tuple {parts : List (List Char)} {tokens : List (List Token)}
    (h : List.Forall₂ Prints parts tokens) : Prints (tupleChars parts) (tupleTokens tokens) :=
  (prints_parens h).delimiter rfl

mutual

/-- The tokens that a value is printed as. -/
def valueTokens : Value → List Token
  | .array items => tupleTokens (itemTokens items)
  | v => [.word v.toText]

def itemTokens : List Value → List (List Token)
  | [] => []
  | item :: rest => valueTokens item :: itemTokens rest

end

theorem valueTokens_of_isLeaf {v : Value} (h : v.IsLeaf) : valueTokens v = [.word v.toText] := by
  cases v with
  | array items => exact absurd rfl (h items)
  | _ => rfl

theorem prints_items {items : List Value} (h : ∀ v ∈ items, Prints (valueChars v) (valueTokens v)) :
    List.Forall₂ Prints (itemChars items) (itemTokens items) := by
  induction items with
  | nil => exact .nil
  | cons v items ih =>
    rw [itemChars, itemTokens]
    exact .cons (h v List.mem_cons_self) (ih fun w hw ↦ h w (List.mem_cons_of_mem v hw))

theorem prints_value (v : Value) : Prints (valueChars v) (valueTokens v) := by
  induction v using Value.induction_parts with
  | h v ih =>
    obtain hleaf | ⟨items, rfl⟩ := v.isLeaf_or_array
    · rw [valueTokens_of_isLeaf hleaf]
      exact prints_word (leafWord_valueChars hleaf).word
    · rw [valueChars, valueTokens]
      refine prints_tuple (prints_items fun w hw ↦ ?_)
      obtain ⟨i, hi⟩ := List.getElem?_of_mem hw
      exact ih (.item i) w hi

/-- A sign and the word behind it are one word; a sign in front of a parenthesis is a word alone. -/
def sortKeyTokens (direction : Direction) : Value → List Token
  | .array items => .word (String.ofList [direction.sign]) :: valueTokens (.array items)
  | key => [.word (String.ofList (direction.sign :: valueChars key))]

mutual

def argTokens : Arg → List Token
  | .call name args => .word name :: tupleTokens (argsTokens args)
  | .value v => valueTokens v
  | .sortKey direction key => sortKeyTokens direction key

def argsTokens : List Arg → List (List Token)
  | [] => []
  | arg :: rest => argTokens arg :: argsTokens rest

end

theorem isWord_name {name : String} (h : Grammar.IsName name) : IsWord name.toList := by
  have hascii : ∀ n < 128, ((Char.ofNat n).isAlphanum || Char.ofNat n == '_') = true →
      isPlain (Char.ofNat n) = true := by
    decide
  have hplain : ∀ c, Grammar.ContinuesName c → isPlain c = true := by
    intro c hc
    have hlt : c.toNat < 128 := by
      simp only [Grammar.ContinuesName, Grammar.StartsName, Char.le_def,
        UInt32.le_iff_toNat_le] at hc
      obtain (⟨-, hc⟩ | ⟨-, hc⟩ | hc) | ⟨-, hc⟩ := hc
      · exact Nat.lt_of_le_of_lt hc (by decide)
      · exact Nat.lt_of_le_of_lt hc (by decide)
      · rw [hc]
        decide
      · exact Nat.lt_of_le_of_lt hc (by decide)
    obtain ⟨n, hn, rfl⟩ := exists_ascii hlt
    exact hascii n hn ((Grammar.continuesName_iff _).1 hc)
  obtain ⟨c, rest, hname, hstart, hrest⟩ := h
  rw [hname]
  exact Plain.isWord (.cons (hplain c (.inl hstart)) fun d hd ↦ hplain d (hrest d hd))
    (List.cons_ne_nil c rest)

theorem isWordChar_sign (direction : Direction) : IsWordChar direction.sign := by
  cases direction <;> exact isWordChar_of_isPlain (by decide)

/-- A word is one word with the sign of a direction in front of it, too. -/
theorem IsWord.signed {cs : List Char} (h : IsWord cs) (direction : Direction) :
    IsWord (direction.sign :: cs) :=
  ⟨List.cons_ne_nil _ _, List.forall_mem_cons.2 ⟨isWordChar_sign direction, h.chars⟩⟩

theorem sortKeyTokens_of_isLeaf {direction : Direction} {key : Value} (h : key.IsLeaf) :
    sortKeyTokens direction key = [.word (String.ofList (direction.sign :: valueChars key))] := by
  cases key with
  | array items => exact absurd rfl (h items)
  | _ => rfl

theorem prints_sortKey (direction : Direction) (key : Value) :
    Prints (direction.sign :: valueChars key) (sortKeyTokens direction key) := by
  obtain hleaf | ⟨items, rfl⟩ := key.isLeaf_or_array
  · rw [sortKeyTokens_of_isLeaf hleaf]
    exact prints_word ((leafWord_valueChars hleaf).word.signed direction)
  · have hsign : IsWord [direction.sign] := by
      refine ⟨List.cons_ne_nil _ _, ?_⟩
      rw [List.forall_mem_singleton]
      exact isWordChar_sign direction
    have hitems := prints_items fun v (_ : v ∈ items) ↦ prints_value v
    exact (prints_word hsign).append_delimiter rfl (prints_parens hitems)

theorem prints_args {args : List Arg} (h : ∀ a ∈ args, Prints (argChars a) (argTokens a)) :
    List.Forall₂ Prints (argsChars args) (argsTokens args) := by
  induction args with
  | nil => exact .nil
  | cons a args ih =>
    rw [argsChars, argsTokens]
    exact .cons (h a List.mem_cons_self) (ih fun b hb ↦ h b (List.mem_cons_of_mem a hb))

theorem prints_arg {P : Value → Prop} {inSort : Bool} {a : Arg} (h : Arg.Shaped P inSort a) :
    Prints (argChars a) (argTokens a) := by
  induction h with
  | @call inSort name args hname _ ih =>
    have hword := prints_word (isWord_name hname)
    rw [String.ofList_toList] at hword
    rw [argChars, argTokens]
    exact hword.append_delimiter rfl (prints_parens (prints_args ih))
  | @value inSort v _ => exact prints_value v
  | @sortKey direction key _ => exact prints_sortKey direction key

/-- The text of a call tree has the tokens of the tree. -/
theorem map_token_ofText {P : Value → Prop} {c : Call} (h : c.Shaped P) :
    (Lexeme.ofText c.toText).map Lexeme.token = argTokens c.toArg := by
  have hprints := prints_arg (h.toArg false) [] [] Lexeme.endsWord_nil Lexeme.lexes_nil
  rw [List.append_nil, List.append_nil] at hprints
  rw [Lexeme.ofText, Call.toText, String.toList_ofList]
  exact hprints 0

end Printer

end ResourceQuery
