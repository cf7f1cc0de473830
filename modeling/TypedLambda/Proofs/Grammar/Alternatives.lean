import Mathlib.Data.List.Pairwise
import TypedLambda.Proofs.Grammar.CommandCompleteness
import TypedLambda.Proofs.Grammar.LeadingBlanks
import TypedLambda.Proofs.Grammar.Number
import TypedLambda.Proofs.Grammar.TypeSoundness

/-!
# The alternatives for commands

A text that fills one of the alternatives for commands fills no other one, so that their order
does not matter, with one exception: braces with nothing between them, alone or in parentheses, are
a record and a record type.

That a type is nothing else is seen from the lexemes that it is derived from. A term need not be
laid out in lexemes, since words may stand right behind numbers in it, and so definitions and terms
are told apart by the characters of their first two lexemes.

## Main definitions

* `Grammar.IsBare`: places at which a term can only start with a name
* `Grammar.IsNestedBraces`: the texts of the exception
* `Grammar.Excludes`: alternatives that read nothing together but the exception

## Main results

* `Grammar.term_of_equals`: where a definition stands, a term is no more than the name
* `Grammar.pairwise_commandAlternatives`: each alternative excludes those behind it
* `Grammar.alternatives_exclusive`: the order of the alternatives, and what terms and types are read
  as
-/

namespace TypedLambda

namespace Grammar

open TypedLambda.Parser (Fails bind_eq_ok_iff)

/-! ## Names in front of an equals sign -/

variable {c c₁ : Cursor}

/-- A name is read behind the gap as it is in front of it. -/
theorem word_skipGap_eq_ok_iff {reason : String} {first : Char → Bool} {r : String × Cursor} :
    (do notKeyword; word reason first) c.skipGap = .ok r ↔
      (do notKeyword; word reason first) c = .ok r := by
  have hword : word reason first c.skipGap = word reason first c := by
    simp only [word, c.skipGap_skipGap]
  simp only [Parser.bind_apply, notKeyword, atKeyword_skipGap]
  cases atKeyword c with
  | true => simp
  | false =>
    simp only [Bool.false_eq_true, if_false]
    rw [hword]

/-- A word stands where it is read. -/
theorem next_of_word {reason : String} {first : Char → Bool} {r : String × Cursor}
    (h : (do notKeyword; word reason first) c = .ok r) :
    atKeyword c = false ∧ ∃ x, c.skipGap.rest.head? = some x ∧ first x = true := by
  obtain ⟨_, c', hnot, hword⟩ := bind_eq_ok_iff.mp h
  obtain ⟨hkeyword, rfl⟩ := notKeyword_eq_ok_iff.mp hnot
  obtain ⟨x, rest, hrest, hx, -⟩ := word_eq_ok_iff.mp hword
  exact ⟨hkeyword, x, by rw [hrest, List.head?_cons], hx⟩

/-- Neither a keyword nor a constant, a brace or a parenthesis stands at the place. -/
structure IsBare (c : Cursor) : Prop where
  /-- No keyword stands there. -/
  atKeyword_eq : atKeyword c = false
  /-- No number starts there. -/
  not_digit : c.skipGap.rest.head?.any Char.isDigit = false
  /-- No other lexeme starts there that starts an atomic term. -/
  head?_ne : ∀ x ∈ ['"', '\x7b', '('], c.skipGap.rest.head? ≠ some x

namespace IsBare

theorem skipGap (h : IsBare c) : IsBare c.skipGap where
  atKeyword_eq := atKeyword_skipGap c ▸ h.atKeyword_eq
  not_digit := by
    rw [c.skipGap_skipGap]
    exact h.not_digit
  head?_ne := by
    rw [c.skipGap_skipGap]
    exact h.head?_ne

theorem fails_keyword {w : String} (h : IsBare c) (hw : w ∈ keywords) : Fails (keyword w) c := by
  refine (numberless_keyword w).fails fun r hr => ?_
  have hat := atKeyword_eq_true_iff.mpr ⟨w, hw, r, hr⟩
  rw [h.atKeyword_eq] at hat
  cases hat

theorem fails_brace (h : IsBare c) : Fails (mark "\x7b") c :=
  fails_mark_of_next (by decide) (h.head?_ne '\x7b' (by decide))

theorem fails_paren (h : IsBare c) : Fails (mark "(") c :=
  fails_mark_of_next (by decide) (h.head?_ne '(' (by decide))

section Terms

variable [DigitLimit] {p : Parser Term} {x : String}

/-- Of the alternatives for atomic terms, none is read there that comes before the names. -/
theorem fails_atomicAlternatives (h : IsBare c) :
    ∀ q ∈ (atomicAlternatives p).take 7, Fails q c := by
  simp only [atomicAlternatives, List.take, List.forall_mem_cons]
  exact ⟨(h.fails_keyword (by decide)).bind _, (h.fails_keyword (by decide)).bind _,
    (fails_number_of_next h.not_digit).map _,
    (fails_stringLiteral_of_next (h.head?_ne '"' (by decide))).map _,
    (h.fails_keyword (by decide)).bind _, (h.fails_brace.bind _).map _, h.fails_brace.bind _,
    List.forall_mem_nil _⟩

/-- No operator comes first. -/
theorem fails_operators (h : IsBare c) :
    ∀ q ∈ (applicationHeadAlternatives p).take 9, Fails q c := by
  have operator {w : String} {f : Unit → Parser Term} (hw : w ∈ keywords) :
      Fails (keyword w >>= f) c :=
    (h.fails_keyword hw).bind f
  simp only [applicationHeadAlternatives, unaryOperators, binaryOperators, List.map,
    List.cons_append, List.nil_append, List.take, List.forall_mem_cons, unary, binary]
  exact ⟨operator (by decide), operator (by decide), operator (by decide), operator (by decide),
    operator (by decide), operator (by decide), operator (by decide), operator (by decide),
    operator (by decide), List.forall_mem_nil _⟩

/-- No other term than an application comes first. -/
theorem fails_binders (h : IsBare c) : ∀ q ∈ (termAlternatives p).take 4, Fails q c := by
  have hstart : ∀ q ∈ [keyword "lambda", keyword "L"], Fails q c :=
    List.forall_mem_cons.mpr ⟨h.fails_keyword (by decide),
      List.forall_mem_singleton.mpr (h.fails_keyword (by decide))⟩
  simp only [termAlternatives, List.take, List.forall_mem_cons]
  exact ⟨(Parser.choice_fails hstart).bind _, (h.fails_keyword (by decide)).bind _,
    (h.fails_keyword (by decide)).bind _, (h.fails_keyword (by decide)).bind _,
    List.forall_mem_nil _⟩

/-- A name is an atomic term. -/
theorem atomic_eq_ok (h : IsBare c) (hx : name c = .ok (x, c₁)) :
    atomic p c = .ok (.var x, c₁) := by
  have hvar : (Term.var <$> name) c.skipGap = .ok (.var x, c₁) :=
    Parser.map_eq_ok_iff.mpr ⟨x, word_skipGap_eq_ok_iff.mpr hx, rfl⟩
  exact (Parser.choice_eq_of_fails _ h.skipGap.fails_atomicAlternatives
    (Parser.not_fails_of_ok hvar)).trans hvar

/-- Where no name stands, no term starts. -/
theorem fails_simple (h : IsBare c) (hname : Fails name c) : Fails (simple p) c := by
  have hname' : Fails name c.skipGap :=
    numberless_name.fails fun r hr => hname.ne_ok r (word_skipGap_eq_ok_iff.mp hr)
  have hall : ∀ q ∈ atomicAlternatives p, Fails q c.skipGap := by
    rw [← List.take_append_drop 7 (atomicAlternatives p)]
    exact List.forall_mem_append.mpr ⟨h.skipGap.fails_atomicAlternatives,
      List.forall_mem_cons.mpr ⟨hname'.map _,
        List.forall_mem_singleton.mpr (h.skipGap.fails_paren.bind _)⟩⟩
  exact (Parser.choice_fails hall).bind _

theorem fails_term (h : IsBare c) (hname : Fails name c) : Fails term c := by
  have hname' : Fails name c.skipGap :=
    numberless_name.fails fun r hr => hname.ne_ok r (word_skipGap_eq_ok_iff.mp hr)
  have hhead : Fails (applicationHead term) c.skipGap := by
    rw [applicationHead_eq, ← List.take_append_drop 9 (applicationHeadAlternatives term)]
    exact Parser.choice_fails (List.forall_mem_append.mpr ⟨h.skipGap.fails_operators,
      List.forall_mem_singleton.mpr (h.skipGap.fails_simple hname')⟩)
  have hall : Fails (termRule term) c := by
    rw [termRule_eq, ← List.take_append_drop 4 (termAlternatives term)]
    exact Parser.choice_fails (List.forall_mem_append.mpr ⟨h.skipGap.fails_binders,
      List.forall_mem_singleton.mpr (hhead.bind _)⟩)
  rwa [Fails, term_apply]

end Terms

/-- A word that is no keyword stands there alone. -/
theorem of_word {reason : String} {first : Char → Bool} {r : String × Cursor}
    (hfirst : ∀ x, first x = true → Text.isWordStart x = true)
    (hr : (do notKeyword; word reason first) c = .ok r) : IsBare c := by
  obtain ⟨hkeyword, x, hhead, hx⟩ := next_of_word hr
  have hstart := hfirst x hx
  refine ⟨hkeyword, ?_, ?_⟩
  · rw [hhead, Option.any_some, ← Bool.not_eq_true]
    intro hdigit
    rw [Text.isWordStart_of_isDigit hdigit] at hstart
    cases hstart
  · have hmarks : ∀ y ∈ ['"', '\x7b', '('], Text.isWordStart y = false := by
      simp only [List.forall_mem_cons]
      exact ⟨rfl, rfl, rfl, List.forall_mem_nil _⟩
    intro y hy heq
    obtain rfl := Option.some.inj (hhead.symm.trans heq)
    rw [hmarks x hy] at hstart
    cases hstart

/-- At an equals sign not even a name can be read, and no selector. -/
theorem of_equals {r : Unit × Cursor} (hr : mark "=" c = .ok r) :
    IsBare c ∧ Fails name c ∧ Fails selector c := by
  obtain ⟨hpre, -⟩ := mark_eq_ok_iff.mp hr
  have hhead : c.skipGap.rest.head? = some '=' := head?_eq_of_isPrefix (by decide) hpre
  refine ⟨⟨?_, ?_, ?_⟩, fails_word_of_next ?_, (fails_mark_of_next (by decide) ?_).bind _⟩
  · have hnil : ∀ w ∈ keywords, w.toList ≠ [] := by decide
    rw [← Bool.not_eq_true, atKeyword_eq_true_iff]
    rintro ⟨w, hw, r, hr⟩
    apply hnil w hw
    rw [← takeWhile_of_keyword hw hr]
    apply takeWhile_eq_nil_of_next
    rw [hhead]
    rfl
  · rw [hhead]
    rfl
  · rw [hhead]
    simp
  · rw [hhead]
    rfl
  · rw [hhead]
    decide

end IsBare

/-! ## The exception -/

/-- Braces with nothing between them, in `n` pairs of parentheses. -/
def nestedBraces : (n : Nat) → List Lexeme
  | 0 => [.mark "\x7b", .mark "\x7d"]
  | n + 1 => .mark "(" :: (nestedBraces n ++ [.mark ")"])

/-- The text is braces with nothing between them, alone or in parentheses. -/
def IsNestedBraces (text : List Char) : Prop :=
  ∃ n, Layout none (nestedBraces n) text

theorem derivesType_nestedBraces (n : Nat) : DerivesType .atomic (nestedBraces n) (.record []) := by
  induction n with
  | zero => exact .emptyRecord
  | succ n ih => exact .paren (.ofProduct (.ofAtomic ih))

/-- Nothing else is the record type without fields. -/
theorem DerivesType.exists_eq_nestedBraces {level : TypeLevel} {ls : List Lexeme} {T : Ty}
    (h : DerivesType level ls T) (hlevel : level ≠ .fields) (hT : T = .record []) :
    ∃ n, ls = nestedBraces n := by
  induction h with
  | emptyRecord => exact ⟨0, rfl⟩
  | record h => exact absurd hT h.ne_emptyRecord
  | paren _ ih =>
    obtain ⟨n, rfl⟩ := ih (by decide) hT
    exact ⟨n + 1, rfl⟩
  | ofAtomic _ ih | ofProduct _ ih => exact ih (by decide) hT
  | field | fieldCons => exact absurd rfl hlevel
  | _ => cases hT

/-! ## Two alternatives -/

/-- At the end of the text there is no more of it. -/
theorem endOfText_of_whole {α : Type} {p : Parser α} {r : α × Cursor} (h : whole p c = .ok r) :
    endOfText r.2 = .ok ((), r.2) := by
  obtain ⟨c₁, -, hend⟩ := whole_eq_ok_iff.mp h
  obtain ⟨hnil, heq⟩ := endOfText_eq_ok_iff.mp hend
  rw [← heq]
  exact endOfText_eq_ok_iff.mpr ⟨c₁.skipGap_skipGap.symm ▸ hnil, c₁.skipGap_skipGap⟩

/-- What fills the text, fills it as a command. -/
theorem whole_map_eq_ok_iff {α : Type} {p : Parser α} {f : α → Command} {r : Command × Cursor} :
    whole (f <$> p) c = .ok r ↔ ∃ a, whole p c = .ok (a, r.2) ∧ f a = r.1 := by
  simp only [whole_eq_ok_iff, Parser.map_eq_ok_iff]
  constructor
  · rintro ⟨c', ⟨a, ha, hr⟩, hend⟩
    exact ⟨a, ⟨c', ha, hend⟩, hr⟩
  · rintro ⟨a, ⟨c', ha, hend⟩, hr⟩
    exact ⟨c', ⟨a, ha, hr⟩, hend⟩

theorem fails_whole_map {α : Type} {p : Parser α} {f : α → Command} (h : Fails (whole p) c) :
    Fails (whole (f <$> p)) c := by
  rcases hp : p c with x | ⟨a, c'⟩
  · obtain ⟨e, he⟩ := h
    have hx : whole p c = .error x := Parser.bind_eq_error hp _
    obtain rfl := Except.error.inj (hx.symm.trans he)
    exact ⟨e, Parser.bind_eq_error (Parser.bind_eq_error hp _) _⟩
  · have hend : Fails endOfText c' := numberless_endOfText.fails fun r hr =>
      h.ne_ok (a, r.2) (whole_eq_ok_iff.mpr ⟨c', hp, hr⟩)
    have ha : (f <$> p) c = .ok (f a, c') := Parser.map_eq_ok_iff.mpr ⟨a, hp, rfl⟩
    exact Parser.fails_bind_of_ok ha (hend.bind _)

section Reading

variable [DigitLimit]

/-- In front of an equals sign, a term is not more than the name that stands there. -/
theorem term_of_equals {x : String} {r : Unit × Cursor} (hx : name c = .ok (x, c₁))
    (hmark : mark "=" c₁ = .ok r) : term c = .ok (.var x, c₁) := by
  have hbare : IsBare c := .of_word (fun _ => Text.isWordStart_of_isNameStart) hx
  obtain ⟨hbare₁, hname₁, hselector₁⟩ := IsBare.of_equals hmark
  have hx' : name c.skipGap = .ok (x, c₁) := word_skipGap_eq_ok_iff.mpr hx
  have hsimple : simple term c.skipGap = .ok (.var x, c₁) :=
    bind_eq_ok_iff.mpr ⟨_, c₁, hbare.skipGap.atomic_eq_ok hx',
      bind_eq_ok_iff.mpr ⟨[], c₁, Parser.many_of_fails hselector₁, rfl⟩⟩
  have hhead : applicationHead term c.skipGap = .ok (.var x, c₁) :=
    (Parser.choice_eq_of_fails _ hbare.skipGap.fails_operators
      (Parser.not_fails_of_ok hsimple)).trans hsimple
  have happlication : application term c.skipGap = .ok (.var x, c₁) :=
    bind_eq_ok_iff.mpr ⟨_, c₁, hhead, bind_eq_ok_iff.mpr
      ⟨[], c₁, Parser.many_of_fails (hbare₁.fails_simple hname₁), rfl⟩⟩
  rw [term_apply]
  exact (Parser.choice_eq_of_fails _ hbare.skipGap.fails_binders
    (Parser.not_fails_of_ok happlication)).trans happlication

/-- A type name starts in upper case, and neither a variable nor a term does. -/
theorem fails_of_abbreviation {r : Command × Cursor} (h : whole abbreviation c = .ok r) :
    Fails (whole definition) c ∧ Fails (whole term) c := by
  obtain ⟨c₁, h, -⟩ := whole_eq_ok_iff.mp h
  obtain ⟨X, c₂, hX, -⟩ := bind_eq_ok_iff.mp h
  have hname : Fails name c := by
    obtain ⟨-, x, hhead, hx⟩ := next_of_word hX
    apply fails_word_of_next
    rw [hhead, Option.any_some, ← Bool.not_eq_true]
    intro hstart
    rw [Text.isUpper_of_isNameStart hstart] at hx
    cases hx
  have hbare : IsBare c := .of_word (fun _ => Text.isWordStart_of_isUpper) hX
  exact ⟨(hname.bind _).bind _, (hbare.fails_term hname).bind _⟩

/-- In a definition, a term ends in front of the equals sign. -/
theorem fails_whole_term_of_equals {x : String} {r : Unit × Cursor} (hx : name c = .ok (x, c₁))
    (hmark : mark "=" c₁ = .ok r) : Fails (whole term) c := by
  obtain ⟨hpre, -⟩ := mark_eq_ok_iff.mp hmark
  have hend : Fails endOfText c₁ := numberless_endOfText.fails fun r' hr' => by
    rw [(endOfText_eq_ok_iff.mp hr').1, List.prefix_nil] at hpre
    exact absurd hpre (by decide)
  exact Parser.fails_bind_of_ok (term_of_equals hx hmark) (hend.bind _)

theorem fails_term_of_definition {r : Command × Cursor} (h : whole definition c = .ok r) :
    Fails (whole term) c := by
  obtain ⟨c₁, h, -⟩ := whole_eq_ok_iff.mp h
  obtain ⟨x, c₂, hx, h⟩ := bind_eq_ok_iff.mp h
  obtain ⟨u, c₃, hmark, -⟩ := bind_eq_ok_iff.mp h
  exact fails_whole_term_of_equals hx hmark

/-- A term does not go on with an equals sign behind a name. -/
theorem fails_definition_of_term {r : Term × Cursor} (h : whole term c = .ok r) :
    Fails (whole definition) c := by
  apply Fails.bind
  rcases hx : name c with x | ⟨x, c₁⟩
  · exact (numberless_name.fails fun r' hr' => by simp [hx] at hr').bind _
  · have hmark : Fails (mark "=") c₁ := (numberless_mark "=").fails fun r' hr' =>
      (fails_whole_term_of_equals hx hr').ne_ok r h
    exact Parser.fails_bind_of_ok hx (hmark.bind _)

/-- No equals sign stands in a type. -/
theorem fails_of_type {r : Ty × Cursor} (hc : c.IsFree) (h : whole type c = .ok r) :
    Fails (whole abbreviation) c ∧ Fails (whole definition) c := by
  obtain ⟨ls, hT, hls⟩ := exists_spells_of_whole_type hc h
  constructor
  · refine fails_whole_abbreviation hls fun X ls' heq => hT.mark_eq_not_mem ?_
    simp [heq]
  · refine fails_whole_definition hls fun x ls' heq => ?_
    have hname : (ls ++ []).head?.any Lexeme.isName = false := hT.head?_ne_name (by decide)
    rw [List.append_nil, heq] at hname
    cases hname

/-- The record type without fields is braces with nothing between them, which are a record. -/
theorem whole_term_of_emptyRecord {r : Ty × Cursor} (hc : c.IsFree) (h : whole type c = .ok r)
    (hempty : r.1 = .record []) :
    (∃ n, Layout c.prev (nestedBraces n) c.rest) ∧ ∃ c', whole term c = .ok (.record [], c') := by
  obtain ⟨ls, hT, hls⟩ := exists_spells_of_whole_type hc h
  have hls' : c.Spells (ls ++ []) := (List.append_nil ls).symm ▸ hls
  obtain ⟨n, rfl⟩ := hT.exists_eq_nestedBraces (by decide) hempty
  have hder : DerivesTerm .term (nestedBraces n) (.record []) :=
    .ofApplication (.ofSimple (.ofAtomic (hT.derivesTerm (by decide) hempty)))
  obtain ⟨c', hc', -⟩ := reads_whole (hder.readsTerm c [] hls' rfl)
  exact ⟨⟨n, hls.layout⟩, c', hc'⟩

/-- Where any other type stands, a term stops in front of an arrow or a star. -/
theorem fails_whole_term_of_type {r : Ty × Cursor} (hc : c.IsFree) (h : whole type c = .ok r)
    (hT : r.1 ≠ .record []) : Fails (whole term) c := by
  obtain ⟨ls, hder, hls⟩ := exists_spells_of_whole_type hc h
  rw [← List.append_nil ls] at hls
  exact (hder.stopsBefore (by decide) hT hls).fails_bind fun _ _ _ _ hend _ =>
    (fails_endOfText hend).bind _

/-- A text that is a term and a type is braces with nothing between them. -/
theorem eq_of_term_of_type {r : Term × Cursor} {r' : Ty × Cursor} (hc : c.IsFree)
    (h : whole term c = .ok r) (h' : whole type c = .ok r') :
    (∃ n, Layout c.prev (nestedBraces n) c.rest) ∧ r.1 = .record [] ∧ r'.1 = .record [] := by
  by_cases hempty : r'.1 = .record []
  · obtain ⟨hbraces, c', hc'⟩ := whole_term_of_emptyRecord hc h' hempty
    obtain rfl := Except.ok.inj (hc'.symm.trans h)
    exact ⟨hbraces, rfl, hempty⟩
  · exact absurd h ((fails_whole_term_of_type hc h' hempty).ne_ok r)

/-! ## All alternatives -/

/-- From the start of the text the parser reads the command. -/
def ReadsFrom (text : List Char) (p : Parser Command) (cmd : Command) : Prop :=
  ∃ c, p (Cursor.start text) = .ok (cmd, c)

/-- Both read something only from braces with nothing between them, and then the first reads them as
a record and the second as a record type. -/
def Excludes (text : List Char) (p q : Parser Command) : Prop :=
  ∀ cmd cmd', ReadsFrom text p cmd → ReadsFrom text q cmd' →
    IsNestedBraces text ∧ cmd = .evaluate (.record []) ∧ cmd' = .showType (.record [])

/-- Each alternative excludes those behind it. -/
theorem pairwise_commandAlternatives (text : List Char) :
    commandAlternatives.Pairwise (Excludes text) := by
  have hfree := Cursor.isFree_start text
  have abbreviationDefinition : Excludes text (whole abbreviation) (whole definition) := by
    rintro cmd cmd' ⟨c, hc⟩ ⟨c', hc'⟩
    exact absurd hc' ((fails_of_abbreviation hc).1.ne_ok _)
  have abbreviationTerm :
      Excludes text (whole abbreviation) (whole (Command.evaluate <$> term)) := by
    rintro cmd cmd' ⟨c, hc⟩ ⟨c', hc'⟩
    exact absurd hc' ((fails_whole_map (fails_of_abbreviation hc).2).ne_ok _)
  have abbreviationType :
      Excludes text (whole abbreviation) (whole (Command.showType <$> type)) := by
    rintro cmd cmd' ⟨c, hc⟩ ⟨c', hc'⟩
    obtain ⟨T, hT, -⟩ := whole_map_eq_ok_iff.mp hc'
    exact absurd hc ((fails_of_type hfree hT).1.ne_ok _)
  have definitionTerm : Excludes text (whole definition) (whole (Command.evaluate <$> term)) := by
    rintro cmd cmd' ⟨c, hc⟩ ⟨c', hc'⟩
    exact absurd hc' ((fails_whole_map (fails_term_of_definition hc)).ne_ok _)
  have definitionType : Excludes text (whole definition) (whole (Command.showType <$> type)) := by
    rintro cmd cmd' ⟨c, hc⟩ ⟨c', hc'⟩
    obtain ⟨T, hT, -⟩ := whole_map_eq_ok_iff.mp hc'
    exact absurd hc ((fails_of_type hfree hT).2.ne_ok _)
  have termType :
      Excludes text (whole (Command.evaluate <$> term)) (whole (Command.showType <$> type)) := by
    rintro cmd cmd' ⟨c, hc⟩ ⟨c', hc'⟩
    obtain ⟨t, ht, rfl⟩ := whole_map_eq_ok_iff.mp hc
    obtain ⟨T, hT, rfl⟩ := whole_map_eq_ok_iff.mp hc'
    obtain ⟨hbraces, hrecord, htype⟩ := eq_of_term_of_type hfree ht hT
    exact ⟨hbraces, congrArg Command.evaluate hrecord, congrArg Command.showType htype⟩
  simp only [commandAlternatives, List.pairwise_cons, List.forall_mem_cons]
  exact ⟨⟨abbreviationDefinition, abbreviationTerm, abbreviationType, List.forall_mem_nil _⟩,
    ⟨definitionTerm, definitionType, List.forall_mem_nil _⟩, ⟨termType, List.forall_mem_nil _⟩,
    List.forall_mem_nil _, .nil⟩

/-- Braces with nothing between them are a record, and a record type. -/
theorem readsFrom_of_isNestedBraces {text : List Char} (h : IsNestedBraces text) :
    ReadsFrom text (whole (Command.evaluate <$> term)) (.evaluate (.record [])) ∧
      ReadsFrom text (whole (Command.showType <$> type)) (.showType (.record [])) := by
  obtain ⟨n, hn⟩ := h
  have hT : DerivesType .type (nestedBraces n) (.record []) :=
    .ofProduct (.ofAtomic (derivesType_nestedBraces n))
  have ht : DerivesTerm .term (nestedBraces n) (.record []) :=
    .ofApplication (.ofSimple (.ofAtomic (hT.derivesTerm (by decide) rfl)))
  have hspells : (Cursor.start text).Spells (nestedBraces n ++ []) :=
    (List.append_nil (nestedBraces n)).symm ▸ ⟨hn, hT.short⟩
  have hterm : Parser.Reads term (Cursor.start text) (.record []) [] :=
    ht.readsTerm _ [] hspells rfl
  obtain ⟨c, hc, -⟩ := reads_whole (hterm.map Command.evaluate)
  obtain ⟨c', hc', -⟩ := reads_whole ((hT.readsType.type hspells rfl).map Command.showType)
  exact ⟨⟨c, hc⟩, c', hc'⟩

/-- Two alternatives that read something from any other text read the same. -/
theorem eq_of_mem_commandAlternatives {text : List Char} (htext : ¬IsNestedBraces text) :
    ∀ p ∈ commandAlternatives, ∀ q ∈ commandAlternatives, ∀ r r',
      p (Cursor.start text) = .ok r → q (Cursor.start text) = .ok r' → r = r' := by
  have hpairwise : commandAlternatives.Pairwise fun p q => ∀ r r',
      p (Cursor.start text) = .ok r → q (Cursor.start text) = .ok r' → r = r' :=
    (pairwise_commandAlternatives text).imp fun h r r' hr hr' =>
      absurd (h r.1 r'.1 ⟨_, hr⟩ ⟨_, hr'⟩).1 htext
  have hsymm : Std.Symm fun p q : Parser Command => ∀ r r',
      p (Cursor.start text) = .ok r → q (Cursor.start text) = .ok r' → r = r' :=
    ⟨fun _ _ h r r' hr hr' => (h r' r hr' hr).symm⟩
  intro p hp q hq
  exact hpairwise.forall_of_forall (fun p _ r r' hr hr' => Except.ok.inj (hr.symm.trans hr')) hp hq

/-- Where one alternative reads something, no other one ends at a number. -/
theorem ne_overlong_of_mem {p q : Parser Command} (hp : p ∈ commandAlternatives)
    (hq : q ∈ commandAlternatives) (hc : c.IsFree) {r : Command × Cursor} (hr : p c = .ok r)
    (e : Overlong) : q c ≠ .error (.overlong e) := by
  have hself : p c ≠ .error (.overlong e) := Parser.ne_overlong_of_ok hr e
  simp only [commandAlternatives, List.mem_cons, List.not_mem_nil, or_false] at hp hq
  rcases hq with rfl | rfl | rfl | rfl
  · exact numberless_whole numberless_abbreviation c e
  · rcases hp with rfl | rfl | rfl | rfl
    · exact (fails_of_abbreviation hr).1.ne_overlong e
    · exact hself
    · obtain ⟨t, ht, -⟩ := whole_map_eq_ok_iff.mp hr
      exact (fails_definition_of_term ht).ne_overlong e
    · obtain ⟨T, hT, -⟩ := whole_map_eq_ok_iff.mp hr
      exact (fails_of_type hc hT).2.ne_overlong e
  · rcases hp with rfl | rfl | rfl | rfl
    · exact (fails_whole_map (fails_of_abbreviation hr).2).ne_overlong e
    · exact (fails_whole_map (fails_term_of_definition hr)).ne_overlong e
    · exact hself
    · obtain ⟨T, hT, -⟩ := whole_map_eq_ok_iff.mp hr
      by_cases hempty : T = .record []
      · obtain ⟨-, c', hc'⟩ := whole_term_of_emptyRecord hc hT hempty
        have hread : whole (Command.evaluate <$> term) c = .ok (.evaluate (.record []), c') :=
          whole_map_eq_ok_iff.mpr ⟨_, hc', rfl⟩
        exact Parser.ne_overlong_of_ok hread e
      · exact (fails_whole_map (fails_whole_term_of_type hc hT hempty)).ne_overlong e
  · exact numberless_whole (numberless_type.map _) c e

/-- What one alternative reads from any other text, each of them reads, or it fails. -/
theorem ok_or_fails_of_mem_commandAlternatives {text : List Char} (htext : ¬IsNestedBraces text) :
    ∀ p ∈ commandAlternatives, ∀ q ∈ commandAlternatives, ∀ r, p (Cursor.start text) = .ok r →
      q (Cursor.start text) = .ok r ∨ Fails q (Cursor.start text) := by
  intro p hp q hq r hr
  rcases hq' : q (Cursor.start text) with (e | e) | r'
  · exact .inr ⟨e, hq'⟩
  · exact absurd hq' (ne_overlong_of_mem hp hq (Cursor.isFree_start text) hr e)
  · rw [eq_of_mem_commandAlternatives htext p hp q hq r r' hr hq']
    exact .inl rfl

/-! ## Commands -/

/-- What is a term is the command to evaluate it. -/
theorem command_of_whole_term {r : Term × Cursor} (h : whole term c = .ok r) :
    command c = .ok (.evaluate r.1, r.2) := by
  have habbreviation : Fails (whole abbreviation) c :=
    (numberless_whole numberless_abbreviation).fails fun r' hr' =>
      (fails_of_abbreviation hr').2.ne_ok r h
  have hbefore : ∀ q ∈ [whole abbreviation, whole definition], Fails q c :=
    List.forall_mem_cons.mpr
      ⟨habbreviation, List.forall_mem_singleton.mpr (fails_definition_of_term h)⟩
  have hevaluate : whole (Command.evaluate <$> term) c = .ok (.evaluate r.1, r.2) :=
    whole_map_eq_ok_iff.mpr ⟨r.1, h, rfl⟩
  exact (Parser.choice_eq_of_fails _ hbefore (Parser.not_fails_of_ok hevaluate)).trans hevaluate

/-- What is a type is the command to show it, unless it is a record, too. -/
theorem command_of_whole_type {r : Ty × Cursor} (hc : c.IsFree) (h : whole type c = .ok r) :
    ∃ c', command c = .ok (if r.1 = .record [] then .evaluate (.record []) else .showType r.1, c') ∧
      endOfText c' = .ok ((), c') := by
  split
  · rename_i hempty
    obtain ⟨-, c', hterm⟩ := whole_term_of_emptyRecord hc h hempty
    exact ⟨c', command_of_whole_term hterm, endOfText_of_whole hterm⟩
  · rename_i hempty
    obtain ⟨habbreviation, hdefinition⟩ := fails_of_type hc h
    have hterm : Fails (whole (Command.evaluate <$> term)) c :=
      fails_whole_map (fails_whole_term_of_type hc h hempty)
    have hbefore : ∀ q ∈ [whole abbreviation, whole definition,
        whole (Command.evaluate <$> term)], Fails q c := by
      simpa only [List.forall_mem_cons] using
        ⟨habbreviation, hdefinition, hterm, List.forall_mem_nil _⟩
    have hshow : whole (Command.showType <$> type) c = .ok (.showType r.1, r.2) :=
      whole_map_eq_ok_iff.mpr ⟨r.1, h, rfl⟩
    exact ⟨r.2, (Parser.choice_eq_of_fails _ hbefore (Parser.not_fails_of_ok hshow)).trans hshow,
      endOfText_of_whole h⟩

/-- A command that is read up to the end of the text is what the text denotes. -/
theorem parse_of_command {source : String} {cmd : Command} {c' : Cursor}
    (hcheck : Token.check source.toList = .ok ())
    (h : command (Cursor.start (Text.expandTabs source.toList)) = .ok (cmd, c'))
    (hend : endOfText c' = .ok ((), c')) : Command.parse source = .ok cmd :=
  read_eq_ok_iff.mpr ⟨hcheck, c', whole_eq_ok_iff.mpr ⟨c', h, hend⟩⟩

/-- **The alternatives for commands exclude each other**, with one exception: of two of them, both
read something only from braces with nothing between them, alone or in parentheses, which are a
record and a record type. So from any other text the alternatives read the same in any order; each
source text that is a term is read as the command to evaluate it, and each that is a type as the
command to show it, but for the exception. -/
theorem alternatives_exclusive :
    (∀ text, commandAlternatives.Pairwise (Excludes text)) ∧
      (∀ text, IsNestedBraces text →
        ReadsFrom text (whole (Command.evaluate <$> term)) (.evaluate (.record [])) ∧
        ReadsFrom text (whole (Command.showType <$> type)) (.showType (.record []))) ∧
      (∀ text, ¬IsNestedBraces text → ∀ reason ps, ps.Perm commandAlternatives → ∀ cmd,
        ReadsFrom text (Parser.choice reason ps) cmd ↔ ReadsFrom text command cmd) ∧
      ∀ source : String,
        (∀ t, Term.parse source = .ok t → Command.parse source = .ok (.evaluate t)) ∧
        ∀ T, Ty.parse source = .ok T → Command.parse source =
          .ok (if T = .record [] then .evaluate (.record []) else .showType T) := by
  refine ⟨pairwise_commandAlternatives, fun text => readsFrom_of_isNestedBraces,
    fun text htext reason ps hperm cmd => ?_, fun source => ⟨fun t ht => ?_, fun T hT => ?_⟩⟩
  · have hagree := ok_or_fails_of_mem_commandAlternatives htext
    exact exists_congr fun c => Parser.choice_perm hperm fun p hp q hq =>
      hagree p (hperm.mem_iff.mp hp) q (hperm.mem_iff.mp hq)
  · obtain ⟨hcheck, c, hc⟩ := read_eq_ok_iff.mp ht
    exact parse_of_command hcheck (command_of_whole_term hc) (endOfText_of_whole hc)
  · obtain ⟨hcheck, c, hc⟩ := read_eq_ok_iff.mp hT
    obtain ⟨c', hcommand, hend⟩ := command_of_whole_type (Cursor.isFree_start _) hc
    exact parse_of_command hcheck hcommand hend

end Reading

/-- The record type without fields, which is read as a record, and a definition, which is read so
with the alternatives in the opposite order, too. -/
theorem alternatives_exclusive_parenthesized :
    IsNestedBraces "(\x7b \x7d)".toList ∧
      Command.parse "(\x7b \x7d)" = .ok (.evaluate (.record [])) ∧
      Command.parse "f = 0" = .ok (.define "f" .zero) ∧
      ReadsFrom "f = 0".toList (Parser.choice "" commandAlternatives.reverse)
        (.define "f" .zero) := by
  have hboth : IsNestedBraces "(\x7b \x7d)".toList := by
    have hterm : ReadsFrom "(\x7b \x7d)".toList (whole (Command.evaluate <$> term))
        (.evaluate (.record [])) := ⟨⟨5, some ')', []⟩, by decide +kernel⟩
    have htype : ReadsFrom "(\x7b \x7d)".toList (whole (Command.showType <$> type))
        (.showType (.record [])) := ⟨⟨5, some ')', []⟩, by decide +kernel⟩
    obtain ⟨-, -, hexcludes, -⟩ := by
      simpa only [commandAlternatives, List.pairwise_cons] using
        alternatives_exclusive.1 "(\x7b \x7d)".toList
    exact (hexcludes _ (List.mem_singleton_self _) _ _ hterm htype).1
  have htype : Ty.parse "(\x7b \x7d)" = .ok (.record []) := by decide +kernel
  have hnot : ¬IsNestedBraces "f = 0".toList := by
    intro hbraces
    obtain ⟨⟨c, hc⟩, -⟩ := alternatives_exclusive.2.1 _ hbraces
    have hfails :
        (whole (Command.evaluate <$> term) (Cursor.start "f = 0".toList)).isOk = false := by
      decide +kernel
    rw [hc] at hfails
    cases hfails
  have hreads : ReadsFrom "f = 0".toList command (.define "f" .zero) :=
    ⟨⟨5, some '0', []⟩, by decide +kernel⟩
  exact ⟨hboth, (alternatives_exclusive.2.2.2 _).2 _ htype, by decide +kernel,
    (alternatives_exclusive.2.2.1 _ hnot "" _ (List.reverse_perm _) _).mpr hreads⟩

end Grammar

end TypedLambda
