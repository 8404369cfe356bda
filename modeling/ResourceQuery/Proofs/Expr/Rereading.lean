import ResourceQuery.Proofs.Expr.Acceptance
import ResourceQuery.Proofs.Expr.Printing

/-!
What the text of a call tree is read as. The printed tokens leave the readers no choice, so that
this is given by a recursion over the tree: every leaf becomes what its word resolves to, and a
number with a sign becomes a key with a direction among the arguments of `sort`. If one leaf is not
read, the whole text is not.
-/

set_option autoImplicit false

namespace ResourceQuery

mutual

/-- What the text of a value is read as. Empty parentheses are no value. -/
def Value.reread? : Value → Option Value
  | .array items => if items.isEmpty then none else (Value.rereadItems? items).map .array
  | v => (Literal.resolve v.toText).toOption

def Value.rereadItems? : List Value → Option (List Value)
  | [] => some []
  | item :: rest => do
    let first ← item.reread?
    let more ← Value.rereadItems? rest
    return first :: more

end

mutual

def Arg.reread? (inSort : Bool) : Arg → Option Arg
  | .call name args => (Arg.rereadList? (name == "sort") args).map (.call name)
  | .value v =>
    if inSort && v.isSigned then
      (Literal.resolve (String.ofList ((Printer.valueChars v).drop 1))).toOption.map
        (.sortKey .descending)
    else v.reread?.map .value
  | .sortKey direction key => key.reread?.map (.sortKey direction)

def Arg.rereadList? (inSort : Bool) : List Arg → Option (List Arg)
  | [] => some []
  | arg :: rest => do
    let first ← arg.reread? inSort
    let more ← Arg.rereadList? inSort rest
    return first :: more

end

def Call.reread? (c : Call) : Option Call :=
  (Arg.rereadList? (c.name == "sort") c.args).map (Call.mk c.name)

theorem Value.rereadItems?_eq (items : List Value) :
    Value.rereadItems? items = items.mapM Value.reread? := by
  induction items with
  | nil => rfl
  | cons v items ih => rw [Value.rereadItems?, List.mapM_cons, ih]

theorem Arg.rereadList?_eq (inSort : Bool) (args : List Arg) :
    Arg.rereadList? inSort args = args.mapM (Arg.reread? inSort) := by
  induction args with
  | nil => rfl
  | cons a args ih => rw [Arg.rereadList?, List.mapM_cons, ih]

namespace Printer

theorem itemTokens_eq (items : List Value) : itemTokens items = items.map valueTokens := by
  induction items with
  | nil => rfl
  | cons v items ih => rw [itemTokens, List.map_cons, ih]

theorem argsTokens_eq (args : List Arg) : argsTokens args = args.map argTokens := by
  induction args with
  | nil => rfl
  | cons a args ih => rw [argsTokens, List.map_cons, ih]

end Printer

namespace Parser

open Grammar (next? next?_cons ne_cons_of_next?)

/-- What a reader finds and what it leaves, if it does not fail. -/
def found? {α : Type} {bound : Nat} (r : Result α bound) : Option (α × List Lexeme) :=
  (outcome r).toOption

/-- A part of a tuple is followed by a comma or by the end of the tuple. -/
def EndsPart (rest : List Lexeme) : Prop :=
  next? rest = some .comma ∨ next? rest = some .rightParen

/-- The reader of parts with commas between them, given by the reader of one part. -/
structure Lists {α : Type} (one : List Lexeme → Option (α × List Lexeme))
    (many : List Lexeme → Option (List α × List Lexeme)) : Prop where
  none : ∀ ls, one ls = none → many ls = none
  last : ∀ ls a rest, one ls = some (a, rest) → next? rest = some .rightParen →
    many ls = some ([a], rest)
  comma : ∀ ls a p rest, one ls = some (a, ⟨.comma, p⟩ :: rest) →
    many ls = (many rest).map fun more ↦ (a :: more.1, more.2)

/-- If every part is read as what `reread` makes of it, so are all of them together. -/
theorem Lists.read {α β : Type} {one : List Lexeme → Option (α × List Lexeme)}
    {many : List Lexeme → Option (List α × List Lexeme)} (h : Lists one many)
    {tokens : β → List Token} {reread : β → Option α} {parts : List β} (hne : parts ≠ [])
    (hparts : ∀ b ∈ parts, ∀ used rest, used.map Lexeme.token = tokens b → EndsPart rest →
      one (used ++ rest) = (reread b).map (·, rest))
    {used rest : List Lexeme}
    (hused : used.map Lexeme.token = [.comma].intercalate (parts.map tokens))
    (hrest : next? rest = some .rightParen) :
    many (used ++ rest) = (parts.mapM reread).map (·, rest) := by
  induction parts generalizing used with
  | nil => exact absurd rfl hne
  | cons b parts ih =>
    have hone := hparts b List.mem_cons_self
    have hmore := fun c hc ↦ hparts c (List.mem_cons_of_mem b hc)
    rcases parts with _ | ⟨c, parts⟩
    · rw [List.map_singleton, List.intercalate_singleton] at hused
      have hfirst := hone used rest hused (.inr hrest)
      rcases hb : reread b with _ | a
      · rw [hb] at hfirst
        rw [h.none _ hfirst]
        simp [hb]
      · rw [hb] at hfirst
        rw [h.last _ a rest hfirst hrest]
        simp [hb]
    · rw [List.map_cons, List.map_cons, List.intercalate_cons_cons, List.append_assoc] at hused
      obtain ⟨first, tail, rfl, hfirst, htail⟩ := List.map_eq_append_iff.1 hused
      obtain ⟨⟨_, p⟩, more, rfl, rfl, hrestTokens⟩ := List.map_eq_cons_iff.1 htail
      have hread := hone first (⟨.comma, p⟩ :: (more ++ rest)) hfirst (.inl rfl)
      have htuple := ih (List.cons_ne_nil c parts) hmore hrestTokens
      rw [List.append_assoc, List.cons_append, List.mapM_cons]
      rcases hb : reread b with _ | a
      · rw [hb] at hread
        rw [h.none _ hread]
        rfl
      · rw [hb] at hread
        rw [h.comma _ a p _ hread, htuple]
        cases (c :: parts).mapM reread <;> rfl

section Rereading

variable {stop : Nat}

theorem lists_values :
    Lists (fun ls ↦ found? (value stop ls)) (fun ls ↦ found? (values stop ls)) := by
  constructor
  · intro ls h
    rw [found?] at h ⊢
    rw [outcome_values, toOption_bind, h, Option.bind_none]
  · intro ls v rest h hrest
    rw [found?] at h ⊢
    rw [outcome_values, toOption_bind, h, Option.bind_some]
    rcases rest with _ | ⟨⟨token, p⟩, rest⟩
    · cases hrest
    · obtain rfl : token = .rightParen := by simpa [next?] using hrest
      rfl
  · intro ls v p rest h
    rw [found?] at h ⊢
    rw [outcome_values, toOption_bind, h, Option.bind_some]
    exact toOption_bind_pure _ _

theorem lists_args {inSort : Bool} :
    Lists (fun ls ↦ found? (arg stop inSort ls)) (fun ls ↦ found? (args stop inSort ls)) := by
  constructor
  · intro ls h
    rw [found?] at h ⊢
    rw [outcome_args, toOption_bind, h, Option.bind_none]
  · intro ls a rest h hrest
    rw [found?] at h ⊢
    rw [outcome_args, toOption_bind, h, Option.bind_some]
    rcases rest with _ | ⟨⟨token, p⟩, rest⟩
    · cases hrest
    · obtain rfl : token = .rightParen := by simpa [next?] using hrest
      rfl
  · intro ls a p rest h
    rw [found?] at h ⊢
    rw [outcome_args, toOption_bind, h, Option.bind_some]
    exact toOption_bind_pure _ _

theorem toOption_resolve (raw : String) (position : Nat) :
    (resolve raw position).toOption = (Literal.resolve raw).toOption := by
  rw [resolve]
  cases Literal.resolve raw <;> rfl

theorem found?_value_word (raw : String) (p : Nat) (rest : List Lexeme) :
    found? (value stop (⟨.word raw, p⟩ :: rest)) =
      (Literal.resolve raw).toOption.map (·, rest) := by
  rw [found?, outcome_value_word, toOption_bind_pure, toOption_resolve]

theorem reread?_of_isLeaf {v : Value} (h : v.IsLeaf) :
    v.reread? = (Literal.resolve v.toText).toOption := by
  cases v with
  | array items => exact absurd rfl (h items)
  | _ => rfl

theorem exists_of_tupleTokens {parts : List (List Token)} {used : List Lexeme}
    (h : used.map Lexeme.token = Printer.tupleTokens parts) :
    ∃ p tail, used = ⟨.leftParen, p⟩ :: tail ∧
      tail.map Lexeme.token = [.comma].intercalate parts ++ [.rightParen] := by
  rw [Printer.tupleTokens, List.cons_append] at h
  obtain ⟨⟨_, p⟩, tail, rfl, rfl, htail⟩ := List.map_eq_cons_iff.1 h
  exact ⟨p, tail, rfl, htail⟩

theorem exists_of_rightParen {ts : List Token} {used : List Lexeme}
    (h : used.map Lexeme.token = ts ++ [.rightParen]) :
    ∃ inner q, used = inner ++ [⟨.rightParen, q⟩] ∧ inner.map Lexeme.token = ts := by
  obtain ⟨inner, last, rfl, hinner, hlast⟩ := List.map_eq_append_iff.1 h
  obtain ⟨⟨_, q⟩, rfl, rfl⟩ := List.map_eq_singleton_iff.1 hlast
  exact ⟨inner, q, rfl, hinner⟩

/-- A printed value is read as what its leaves resolve to. -/
theorem found?_value (v : Value) (used rest : List Lexeme)
    (hused : used.map Lexeme.token = Printer.valueTokens v) :
    found? (value stop (used ++ rest)) = v.reread?.map (·, rest) := by
  induction v using Value.induction_parts generalizing used rest with
  | h v ih =>
    obtain hleaf | ⟨items, rfl⟩ := v.isLeaf_or_array
    · rw [Printer.valueTokens_of_isLeaf hleaf] at hused
      obtain ⟨⟨_, p⟩, rfl, rfl⟩ := List.map_eq_singleton_iff.1 hused
      rw [List.singleton_append, found?_value_word, reread?_of_isLeaf hleaf]
    · rw [Printer.valueTokens, Printer.itemTokens_eq] at hused
      obtain ⟨p, tail, rfl, htail⟩ := exists_of_tupleTokens hused
      obtain ⟨inner, q, rfl, hinner⟩ := exists_of_rightParen htail
      rw [List.cons_append, List.append_assoc, found?, outcome_value_leftParen, toOption_bind]
      change (found? (values stop (inner ++ ⟨.rightParen, q⟩ :: rest))).bind _ = _
      rw [Value.reread?]
      split
      · next hempty =>
        obtain rfl := List.isEmpty_iff.1 hempty
        obtain rfl := List.map_eq_nil_iff.1 hinner
        have hnone : found? (value stop (⟨.rightParen, q⟩ :: rest)) = none := by
          rw [found?, outcome_value_of_other] <;> simp [Except.toOption]
        rw [List.nil_append, lists_values.none _ hnone, Option.bind_none, Option.map_none]
      · next hempty =>
        have hread := lists_values.read (by simpa [List.isEmpty_iff] using hempty)
          (fun w hw used rest hused _ ↦ by
            obtain ⟨i, hi⟩ := List.getElem?_of_mem hw
            exact ih (.item i) w hi used rest hused) hinner (next?_cons .rightParen q rest)
        rw [hread, Value.rereadItems?_eq]
        cases items.mapM Value.reread? <;> rfl

theorem head_valueTokens (v : Value) :
    ∃ t us, Printer.valueTokens v = t :: us ∧ t ≠ .rightParen := by
  cases v with
  | array items => exact ⟨_, _, rfl, by simp⟩
  | _ => exact ⟨_, _, rfl, by simp⟩

theorem head_argTokens (a : Arg) : ∃ t us, Printer.argTokens a = t :: us ∧ t ≠ .rightParen := by
  cases a with
  | call name args => exact ⟨_, _, rfl, by simp⟩
  | value v => exact head_valueTokens v
  | sortKey direction key =>
    cases key with
    | array items => exact ⟨_, _, rfl, by simp⟩
    | _ => exact ⟨_, _, rfl, by simp⟩

theorem head_argsTokens (a : Arg) (as : List Arg) :
    ∃ t us, [Token.comma].intercalate (Printer.argsTokens (a :: as)) = t :: us ∧
      t ≠ .rightParen := by
  obtain ⟨t, us, hhead, ht⟩ := head_argTokens a
  rw [Printer.argsTokens, hhead]
  cases as with
  | nil => exact ⟨t, us, List.intercalate_singleton, ht⟩
  | cons b as =>
    rw [Printer.argsTokens, List.intercalate_cons_cons]
    exact ⟨t, _, rfl, ht⟩

/-- The arguments of a call behind its opening parenthesis. -/
theorem found?_arguments {inSort : Bool} {start : Nat} {as : List Arg}
    (hparts : ∀ a ∈ as, ∀ used rest, used.map Lexeme.token = Printer.argTokens a →
      EndsPart rest → found? (arg stop inSort (used ++ rest)) = (a.reread? inSort).map (·, rest))
    {used rest : List Lexeme} (hused : used.map Lexeme.token =
      [.comma].intercalate (Printer.argsTokens as) ++ [.rightParen]) :
    found? (arguments stop inSort start (used ++ rest)) =
      (Arg.rereadList? inSort as).map (·, rest) := by
  obtain ⟨inner, q, rfl, hinner⟩ := exists_of_rightParen hused
  rw [List.append_assoc, List.singleton_append]
  rcases as with _ | ⟨a, as⟩
  · obtain rfl := List.map_eq_nil_iff.1 hinner
    rw [List.nil_append, found?, outcome_arguments_rightParen]
    rfl
  · obtain ⟨t, us, hhead, ht⟩ := head_argsTokens a as
    have hopen : ∀ p behind, inner ++ ⟨.rightParen, q⟩ :: rest ≠ ⟨.rightParen, p⟩ :: behind := by
      intro p behind heq
      rw [hhead] at hinner
      obtain ⟨⟨_, r⟩, tail, rfl, rfl, -⟩ := List.map_eq_cons_iff.1 hinner
      exact ht (congrArg Lexeme.token (List.cons.inj heq).1)
    rw [Printer.argsTokens_eq] at hinner
    have hread := lists_args.read (List.cons_ne_nil a as) hparts hinner
      (next?_cons .rightParen q rest)
    rw [found?, outcome_arguments_of_ne _ _ _ _ hopen, toOption_bind]
    change (found? (args stop inSort (inner ++ ⟨.rightParen, q⟩ :: rest))).bind _ = _
    rw [hread, Arg.rereadList?_eq]
    cases (a :: as).mapM (Arg.reread? inSort) <;> rfl

theorem found?_arg_call {inSort : Bool} {name : String} {as : List Arg}
    (hname : Grammar.IsName name)
    (hparts : ∀ a ∈ as, ∀ used rest, used.map Lexeme.token = Printer.argTokens a →
      EndsPart rest → found? (arg stop (name == "sort") (used ++ rest)) =
        (a.reread? (name == "sort")).map (·, rest))
    {used rest : List Lexeme}
    (hused : used.map Lexeme.token = Printer.argTokens (.call name as)) :
    found? (arg stop inSort (used ++ rest)) =
      ((Arg.call name as).reread? inSort).map (·, rest) := by
  rw [Printer.argTokens] at hused
  obtain ⟨⟨_, p⟩, opened, rfl, rfl, hopened⟩ := List.map_eq_cons_iff.1 hused
  obtain ⟨q, tail, rfl, htail⟩ := exists_of_tupleTokens hopened
  have hplain := Grammar.splitDirection?_of_not_signed inSort fun _ ↦ hname.not_isSigned
  rw [List.cons_append, List.cons_append, found?, outcome_arg_call _ _ _ _ _ hplain,
    Grammar.checkName_of_isName hname, ok_bind, toOption_bind_pure]
  change Option.map _ (found? (arguments stop (name == "sort") p (tail ++ rest))) = _
  rw [found?_arguments hparts htail, Arg.reread?]
  cases Arg.rereadList? (name == "sort") as <;> rfl

theorem splitDirection?_sign {direction : Direction} {cs : List Char}
    (h : ∀ c ∈ cs.head?, Text.isBlank c = false) :
    splitDirection? (String.ofList (direction.sign :: cs)) =
      some (direction, String.ofList cs) := by
  refine Grammar.splitDirection?_eq_some_iff.2 ⟨[], List.forall_mem_nil _, ?_, ?_⟩
  · rw [String.toList_ofList, String.toList_ofList, List.nil_append]
  · rwa [String.toList_ofList]

theorem splitDirection?_of_head {c : Char} (rest : List Char) (h : Direction.ofSign? c = none) :
    splitDirection? (String.ofList (c :: rest)) = none := by
  rw [splitDirection?, String.toList_ofList]
  dsimp only
  rw [h, Option.map_none]

/-- A word behind a sign is the key, if it is one word with the sign. -/
theorem found?_arg_signed {direction : Direction} {cs : List Char} (hcs : Printer.IsWord cs)
    (p : Nat) (rest : List Lexeme) :
    found? (arg stop true (⟨.word (String.ofList (direction.sign :: cs)), p⟩ :: rest)) =
      (Literal.resolve (String.ofList cs)).toOption.map
        fun key ↦ (.sortKey direction key, rest) := by
  have hblank : ∀ c ∈ cs.head?, Text.isBlank c = false :=
    fun c hc ↦ (hcs.chars c (List.mem_of_mem_head? hc)).2
  have hne : String.ofList cs ≠ "" := by
    intro hempty
    have hnil := congrArg String.toList hempty
    rw [String.toList_ofList] at hnil
    exact hcs.ne_nil hnil
  rw [found?, outcome_arg_sortKey stop p rest true (splitDirection?_sign hblank),
    outcome_sortKey_of_ne _ _ _ _ hne, toOption_bind_pure, toOption_bind_pure, toOption_resolve]
  cases (Literal.resolve (String.ofList cs)).toOption <;> rfl

theorem found?_arg_value {inSort : Bool} {v : Value} {used rest : List Lexeme}
    (hused : used.map Lexeme.token = Printer.valueTokens v) (hrest : EndsPart rest) :
    found? (arg stop inSort (used ++ rest)) =
      ((Arg.value v).reread? inSort).map (·, rest) := by
  have hvalue : found? (value stop (used ++ rest)) = _ := found?_value v used rest hused
  obtain hleaf | ⟨items, rfl⟩ := v.isLeaf_or_array
  · have hword := Printer.leafWord_valueChars hleaf
    rw [Printer.valueTokens_of_isLeaf hleaf] at hused
    obtain ⟨⟨_, p⟩, rfl, rfl⟩ := List.map_eq_singleton_iff.1 hused
    by_cases hsigned : (inSort && v.isSigned) = true
    · obtain ⟨rfl, hv⟩ := Bool.and_eq_true_iff.1 hsigned
      obtain ⟨c, cs, htext⟩ := hword.signed hv
      have hkey : Printer.IsWord (c :: cs) :=
        ⟨List.cons_ne_nil c cs, fun d hd ↦ hword.word.chars d (htext ▸ List.mem_cons_of_mem _ hd)⟩
      have hread : found? (arg stop true
          (⟨.word (String.ofList ('-' :: c :: cs)), p⟩ :: rest)) = _ :=
        @found?_arg_signed _ .descending _ hkey p rest
      rw [Arg.reread?, if_pos hsigned, Value.toText, htext]
      refine hread.trans ?_
      rw [Option.map_map]
      rfl
    · have hplain : (if inSort then splitDirection? v.toText else none) = none := by
        cases inSort with
        | false => rfl
        | true =>
          obtain ⟨c, cs, htext, hc⟩ := hword.unsigned (by simpa using hsigned)
          rw [if_pos rfl, Value.toText, htext]
          exact splitDirection?_of_head cs hc
      have hparen : next? rest ≠ some .leftParen := by
        obtain h | h := hrest <;> simp [h]
      rw [found?] at hvalue
      rw [Arg.reread?, if_neg hsigned, found?, List.singleton_append,
        outcome_arg_word _ _ _ _ hplain (ne_cons_of_next? hparen), toOption_bind_pure]
      rw [List.singleton_append] at hvalue
      rw [hvalue]
      cases v.reread? <;> rfl
  · have hword : ∀ raw p behind, used ++ rest ≠ ⟨.word raw, p⟩ :: behind := by
      rw [Printer.valueTokens] at hused
      obtain ⟨q, tail, rfl, -⟩ := exists_of_tupleTokens hused
      simp
    have hsigned : ¬ (inSort && (Value.array items).isSigned) = true := by
      simp [Value.isSigned]
    rw [found?] at hvalue
    rw [Arg.reread?, if_neg hsigned, found?, outcome_arg_of_not_word _ _ _ hword,
      toOption_bind_pure, hvalue]
    cases (Value.array items).reread? <;> rfl

theorem found?_arg_sortKey {direction : Direction} {key : Value} {used rest : List Lexeme}
    (hused : used.map Lexeme.token = Printer.sortKeyTokens direction key) :
    found? (arg stop true (used ++ rest)) =
      ((Arg.sortKey direction key).reread? true).map (·, rest) := by
  obtain hleaf | ⟨items, rfl⟩ := key.isLeaf_or_array
  · rw [Printer.sortKeyTokens_of_isLeaf hleaf] at hused
    obtain ⟨⟨_, p⟩, rfl, rfl⟩ := List.map_eq_singleton_iff.1 hused
    rw [List.singleton_append, found?_arg_signed (Printer.leafWord_valueChars hleaf).word,
      Arg.reread?, reread?_of_isLeaf hleaf, Option.map_map]
    rfl
  · rw [Printer.sortKeyTokens] at hused
    obtain ⟨⟨_, p⟩, tuple, rfl, rfl, htuple⟩ := List.map_eq_cons_iff.1 hused
    have hvalue : found? (value stop (tuple ++ rest)) = _ :=
      found?_value (.array items) tuple rest htuple
    rw [Printer.valueTokens] at htuple
    obtain ⟨q, tail, rfl, -⟩ := exists_of_tupleTokens htuple
    have hsign : splitDirection? (String.ofList [direction.sign]) = some (direction, "") :=
      splitDirection?_sign (by simp)
    rw [found?] at hvalue
    rw [List.cons_append] at hvalue
    rw [List.cons_append, List.cons_append, found?,
      outcome_arg_sortKey stop p _ true hsign, outcome_sortKey_empty _ _ _ _ _ rfl,
      toOption_bind_pure, hvalue, Arg.reread?]
    cases (Value.array items).reread? <;> rfl

/-- A printed argument is read as what it is reread as, in front of a comma or of the end. -/
theorem found?_arg {P : Value → Prop} {inSort : Bool} {a : Arg} (h : Arg.Shaped P inSort a)
    (used rest : List Lexeme) (hused : used.map Lexeme.token = Printer.argTokens a)
    (hrest : EndsPart rest) :
    found? (arg stop inSort (used ++ rest)) = (a.reread? inSort).map (·, rest) := by
  induction h generalizing used rest with
  | call hname _ ih => exact found?_arg_call hname ih hused
  | value => exact found?_arg_value hused hrest
  | sortKey => exact found?_arg_sortKey hused

/-- The printed tokens of a call are a whole query. -/
theorem toOption_query {P : Value → Prop} {c : Call} (h : c.Shaped P) {used : List Lexeme}
    (hused : used.map Lexeme.token = Printer.argTokens c.toArg) :
    (query stop used).toOption = c.reread? := by
  rw [Call.toArg, Printer.argTokens] at hused
  obtain ⟨⟨_, p⟩, opened, rfl, rfl, hopened⟩ := List.map_eq_cons_iff.1 hused
  obtain ⟨q, tail, rfl, htail⟩ := exists_of_tupleTokens hopened
  have harguments : found? (arguments stop (c.name == "sort") p (tail ++ [])) = _ :=
    found?_arguments (fun a ha ↦ found?_arg (h.2 a ha)) htail
  rw [List.append_nil, found?] at harguments
  rw [query_of_ne_nil _ _ (List.cons_ne_nil _ _), outcome_clause_call,
    Grammar.checkName_of_isName h.1, ok_bind, toOption_bind, toOption_bind_pure, harguments,
    Call.reread?]
  cases Arg.rereadList? (c.name == "sort") c.args with
  | none => rfl
  | some as =>
    simp only [Option.map_some, Option.bind_some, outcome_moreClauses_nil, ok_bind]
    rfl

end Rereading

end Parser

/-- The text of a call tree is read as what the tree is reread as. -/
theorem toOption_parse_toText {P : Value → Prop} {c : Call} (h : c.Shaped P) :
    (parse c.toText).toOption = c.reread? := by
  rw [parse]
  have hquery := @Parser.toOption_query c.toText.length _ _ h _ (Printer.map_token_ofText h)
  rw [← hquery]
  cases Parser.query c.toText.length (Lexeme.ofText c.toText) <;> rfl

end ResourceQuery
