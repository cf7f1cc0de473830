import TypedLambda.Grammar.Command
import TypedLambda.Proofs.Grammar.TermCompleteness

/-!
# Completeness of the parser for commands

A command is a definition, a term or a type, and the parser for commands tries these in turn, each
up to the end of the text. Definitions show themselves by the mark behind their first word, which no
term and no type has there. Terms and types share braces and parentheses only. So where a type is
spelled, the parser for terms fails or stops in front of an arrow or a star, with one exception: the
record type without fields is spelled like the record without fields.

## Main definitions

* `Grammar.DerivesCommand`: what a sequence of lexemes denotes as a command
* `Parser.StopsBefore`: a parser that fails or stops in front of certain lexemes

## Main results

* `Grammar.DerivesType.stopsBefore`: where a type is spelled, no whole term is
* `Grammar.DerivesCommand.reads`: what derives a command is read as this command
* `Grammar.reads_command_of_emptyRecord`: the exception
-/

namespace TypedLambda

/-! ## The lexemes of types -/

namespace Grammar.DerivesType

variable {level : TypeLevel} {ls ls' : List Lexeme} {T : Ty}

/-- Fields start with a label and a colon. -/
theorem exists_label (h : DerivesType .fields ls T) :
    ∃ x rest, ls = .name x :: .mark ":" :: rest := by
  cases h with
  | field x => exact ⟨x, _, rfl⟩
  | fieldCons x => exact ⟨x, _, rfl⟩

theorem ne_emptyRecord (h : DerivesType .fields ls T) : T ≠ .record [] := by
  cases h <;> simp

/-- The record type without fields is spelled like the record without fields. -/
theorem derivesTerm (h : DerivesType level ls T) (hlevel : level ≠ .fields)
    (hT : T = .record []) : DerivesTerm .atomic ls (.record []) := by
  induction h with
  | emptyRecord => exact .emptyRecord
  | record h => exact absurd hT h.ne_emptyRecord
  | paren _ ih =>
    exact .paren (.ofApplication (.ofSimple (.ofAtomic (ih (by decide) hT))))
  | ofAtomic _ ih | ofProduct _ ih => exact ih (by decide) hT
  | field | fieldCons => exact absurd rfl hlevel
  | _ => cases hT

/-- A type does not start with the name of a variable. -/
theorem head?_ne_name (h : DerivesType level ls T) (hlevel : level ≠ .fields) :
    (ls ++ ls').head?.any Lexeme.isName = false := by
  induction h generalizing ls' with
  | ofAtomic _ ih | ofProduct _ ih => exact ih (by decide)
  | prod _ _ ih | arrow _ _ ih =>
    rw [List.append_assoc]
    exact ih (by decide)
  | field | fieldCons => exact absurd rfl hlevel
  | _ => rfl

/-- No definition is spelled in a type. -/
theorem mark_eq_not_mem (h : DerivesType level ls T) : Lexeme.mark "=" ∉ ls := by
  induction h <;> simp_all

/-- There are no numbers in types. -/
theorem short [DigitLimit] (h : DerivesType level ls T) : ∀ l ∈ ls, l.Short := by
  induction h <;> simp_all [or_imp]

end Grammar.DerivesType

variable [DigitLimit]

namespace Parser

/-! ## Stopping too early -/

variable {α β : Type} {p : Parser α} {c : Cursor} {a : α} {l : Lexeme} {ls : List Lexeme}
  {first : Lexeme → Bool}

/-- The parser fails at the cursor, or it reads something and stops in front of such a lexeme. -/
def StopsBefore (p : Parser α) (c : Cursor) (first : Lexeme → Bool) : Prop :=
  Fails p c ∨ ∃ a l ls, Reads p c a (l :: ls) ∧ first l = true

theorem Fails.stopsBefore (h : Fails p c) : StopsBefore p c first :=
  .inl h

theorem Reads.stopsBefore (h : Reads p c a (l :: ls)) (hl : first l = true) :
    StopsBefore p c first :=
  .inr ⟨a, l, ls, h, hl⟩

theorem StopsBefore.map (h : StopsBefore p c first) (f : α → β) :
    StopsBefore (f <$> p) c first := by
  rcases h with h | ⟨a, l, ls, h, hl⟩
  · exact (h.map f).stopsBefore
  · exact (h.map f).stopsBefore hl

/-- A sequence fails when its first part stops in front of lexemes where the rest fails. -/
theorem StopsBefore.fails_bind {f : α → Parser β} (h : StopsBefore p c first)
    (hf : ∀ a c' l ls, c'.Spells (l :: ls) → first l = true → Fails (f a) c') :
    Fails (p >>= f) c := by
  rcases h with h | ⟨a, l, ls, h, hl⟩
  · exact h.bind f
  · exact h.fails_bind fun c' hc' => hf a c' l ls hc' hl

end Parser

namespace Grammar

variable {c : Cursor} {l : Lexeme} {ls ls' : List Lexeme} {T : Ty} {t : Term}

/-! ## Terms that do not start -/

theorem startsWith_term :
    Parser.StartsWith term fun l => termFirsts.any (· l) := by
  intro c ls hc hfirst
  have hrule : Parser.Fails (termRule term) c :=
    (Parser.StartsWith.choice (term_starts term)).afterGap c ls hc hfirst
  rwa [Parser.Fails, term_apply]

/-- At a mark a term starts only if an atomic term does. -/
theorem fails_term_of_fails_atomic {s : String} (hc : c.Spells (.mark s :: ls))
    (h : ∀ c' : Cursor, c'.Spells (.mark s :: ls) → Parser.Fails (atomic term) c') :
    Parser.Fails term c := by
  have hc' := hc.skipGap
  have hoperator := Parser.fails_take (applicationHead_starts term) 9 hc' rfl
  have hhead : Parser.Fails (applicationHead term) c.skipGap := by
    rw [applicationHead_eq]
    exact Parser.choice_fails (List.forall_mem_append.mpr
      ⟨hoperator, List.forall_mem_singleton.mpr ((h _ hc').bind _)⟩)
  have hbinder := Parser.fails_take (term_starts term) 4 hc' rfl
  have hrule : Parser.Fails (termRule term) c := by
    rw [termRule_eq]
    exact Parser.choice_fails (List.forall_mem_append.mpr
      ⟨hbinder, List.forall_mem_singleton.mpr (hhead.bind _)⟩)
  rwa [Parser.Fails, term_apply]

/-- A parenthesis does not start a term where what is behind it stops before it is closed. -/
theorem fails_term_of_paren {first : Lexeme → Bool} (hfirst : first (.mark ")") = false)
    (hc : c.Spells (.mark "(" :: ls))
    (h : ∀ c' : Cursor, c'.Spells ls → Parser.StopsBefore term c' first) :
    Parser.Fails term c := by
  apply fails_term_of_fails_atomic hc
  intro c' hc'
  have hbefore := Parser.fails_take (atomic_starts term) 8 hc'.skipGap rfl
  have hparen : Parser.Fails (between "(" ")" term) c'.skipGap := by
    apply (reads_mark hc'.skipGap).fails_bind
    intro c₁ hc₁
    apply (h c₁ hc₁).fails_bind
    intro t c₂ l ls₂ hc₂ hl
    refine (fails_mark (by decide) hc₂ ?_).bind _
    rintro heq
    obtain rfl := Option.some.inj heq
    rw [hfirst] at hl
    cases hl
  rw [atomic_eq]
  exact Parser.choice_fails (List.forall_mem_append.mpr
    ⟨hbefore, List.forall_mem_singleton.mpr hparen⟩)

/-- A brace in front of a label and a colon starts neither a record nor a pair. -/
theorem fails_term_of_field {x : String}
    (hc : c.Spells (.mark "\x7b" :: .name x :: .mark ":" :: ls)) : Parser.Fails term c := by
  apply fails_term_of_fails_atomic hc
  intro c' hc'
  have hbefore := Parser.fails_take (atomic_starts term) 5 hc'.skipGap rfl
  have hrecord : Parser.Fails (Term.record <$> between "\x7b" "\x7d" (fields "=" term))
      c'.skipGap := by
    apply Parser.Fails.map
    apply (reads_mark hc'.skipGap).fails_bind
    intro c₁ hc₁
    apply (reads_fields_nil hc₁ (fails_field (by decide) hc₁ (by simp))).fails_bind
    intro c₂ hc₂
    exact (fails_mark (by decide) hc₂ (by simp)).bind _
  have hpair : Parser.Fails (between "\x7b" "\x7d" do
      let t ← term
      mark ","
      let u ← term
      pure (Term.pair t u)) c'.skipGap := by
    apply (reads_mark hc'.skipGap).fails_bind
    intro c₁ hc₁
    have hlabel : DerivesTerm .term [.name x] (.var x) :=
      .ofApplication (.ofSimple (.ofAtomic (.var x)))
    have hvar : Parser.Reads term c₁ (.var x) (.mark ":" :: ls) := hlabel.readsTerm c₁ _ hc₁ rfl
    apply Parser.Fails.bind
    apply hvar.fails_bind
    intro c₂ hc₂
    exact (fails_mark (by decide) hc₂ (by simp)).bind _
  have hname : Parser.Fails (Term.var <$> name) c'.skipGap :=
    (startsWith_name.map _) _ _ hc'.skipGap rfl
  have hparen : Parser.Fails (between "(" ")" term) c'.skipGap :=
    ((startsWith_mark "(" rfl).bind _) _ _ hc'.skipGap rfl
  rw [atomic_eq]
  exact Parser.choice_fails (List.forall_mem_append.mpr ⟨hbefore, by
    simpa only [List.forall_mem_cons] using
      ⟨hrecord, hpair, hname, hparen, List.forall_mem_nil _⟩⟩)

/-! ## Types and terms -/

namespace DerivesType

variable {level : TypeLevel}

/-- Where a type with fields or without braces is spelled, a term is read at most up to an arrow or
a star. -/
theorem stopsBefore (h : DerivesType level ls T) (hlevel : level ≠ .fields)
    (hT : T ≠ .record []) (hc : c.Spells (ls ++ ls')) :
    Parser.StopsBefore term c continuesType := by
  have chain {ls ls₂ : List Lexeme} {A : Ty} {level : TypeLevel} (hA : DerivesType level ls A)
      (hlevel : level ≠ .fields) {s : String} (hs : continuesType (.mark s) = true)
      (hnot : continuesTerm (.mark s) = false)
      (ih : A ≠ .record [] → ∀ {c : Cursor} {ls' : List Lexeme}, c.Spells (ls ++ ls') →
        Parser.StopsBefore term c continuesType)
      {c : Cursor} (hc : c.Spells (ls ++ .mark s :: ls₂)) :
      Parser.StopsBefore term c continuesType := by
    by_cases hempty : A = .record []
    · have hder : DerivesTerm .term ls (.record []) :=
        .ofApplication (.ofSimple (.ofAtomic (hA.derivesTerm hlevel hempty)))
      exact (hder.readsTerm c _ hc hnot).stopsBefore hs
    · exact ih hempty hc
  induction h generalizing c ls' with
  | bool | nat | string | list | named => exact (startsWith_term c _ hc rfl).stopsBefore
  | emptyRecord => exact absurd rfl hT
  | record h =>
    obtain ⟨x, rest, rfl⟩ := h.exists_label
    exact (fails_term_of_field hc).stopsBefore
  | paren _ ih =>
    rw [List.cons_append, List.append_assoc] at hc
    exact (fails_term_of_paren rfl hc fun c' hc' => ih (by decide) hT hc').stopsBefore
  | ofAtomic _ ih | ofProduct _ ih => exact ih (by decide) hT hc
  | prod hA _ ihA =>
    rw [List.append_assoc] at hc
    exact chain hA (by decide) rfl rfl (fun hne _ _ => ihA (by decide) hne) hc
  | arrow hA _ ihA =>
    rw [List.append_assoc] at hc
    exact chain hA (by decide) rfl rfl (fun hne _ _ => ihA (by decide) hne) hc
  | field | fieldCons => exact absurd rfl hlevel

end DerivesType

/-! ## Commands -/

/-- The lexemes are the command. -/
inductive DerivesCommand : List Lexeme → Command → Prop
  | abbreviate (X : String) {ls : List Lexeme} {T : Ty} (h : DerivesType .type ls T) :
      DerivesCommand (.typeName X :: .mark "=" :: ls) (.abbreviate X T)
  | define (x : String) {ls : List Lexeme} {t : Term} (h : DerivesTerm .term ls t) :
      DerivesCommand (.name x :: .mark "=" :: ls) (.define x t)
  | evaluate {ls : List Lexeme} {t : Term} (h : DerivesTerm .term ls t) :
      DerivesCommand ls (.evaluate t)
  | showType {ls : List Lexeme} {T : Ty} (h : DerivesType .type ls T) :
      DerivesCommand ls (.showType T)

theorem reads_whole {α : Type} {p : Parser α} {a : α} (h : Parser.Reads p c a []) :
    Parser.Reads (whole p) c a [] :=
  h.bind fun _ hc => (reads_endOfText hc).bind fun _ hc' => Parser.reads_pure hc'

theorem fails_endOfText (hc : c.Spells (l :: ls)) : Parser.Fails endOfText c := by
  obtain ⟨cs, hrest, hl, -⟩ := hc.exists_eq_append
  refine numberless_endOfText.fails fun r hr => ?_
  obtain ⟨hnil, -⟩ := endOfText_eq_ok_iff.mp hr
  rw [hrest] at hnil
  exact Lexeme.chars_ne_nil hl (List.append_eq_nil_iff.mp hnil).1

/-- The definition of a type name is not read where no type name with an equals sign comes first. -/
theorem fails_whole_abbreviation (hc : c.Spells ls)
    (hne : ∀ X ls', ls ≠ .typeName X :: .mark "=" :: ls') :
    Parser.Fails (whole abbreviation) c :=
  (fails_label reads_typeName fails_typeName (by decide) hc hne).bind _

/-- The definition of a variable is not read where no name with an equals sign comes first. -/
theorem fails_whole_definition (hc : c.Spells ls)
    (hne : ∀ x ls', ls ≠ .name x :: .mark "=" :: ls') : Parser.Fails (whole definition) c :=
  (fails_label reads_name fails_name (by decide) hc hne).bind _

/-- The alternatives for commands. -/
def commandAlternatives : List (Parser Command) :=
  [whole abbreviation, whole definition, whole (Command.evaluate <$> term),
    whole (Command.showType <$> type)]

theorem reads_command {p : Parser Command} {cmd : Command} (k : Nat)
    (hk : commandAlternatives[k]? = some p)
    (hbefore : ∀ q ∈ commandAlternatives.take k, Parser.Fails q c)
    (h : Parser.Reads p c cmd []) : Parser.Reads command c cmd [] :=
  Parser.Reads.choice _ k hk hbefore h

theorem reads_command_of_term (h : DerivesTerm .term ls t) (hc : c.Spells ls) :
    Parser.Reads command c (.evaluate t) [] := by
  rw [← List.append_nil ls] at hc
  have habbreviation : Parser.Fails (whole abbreviation) c := by
    obtain ⟨l, rest, rfl, hl⟩ := h.exists_starts
    refine fails_whole_abbreviation hc fun X ls' heq => ?_
    obtain rfl := (List.cons.inj heq).1
    cases hl
  have hdefinition : Parser.Fails (whole definition) c :=
    fails_whole_definition hc (h.ne_field (by decide) (by simp))
  refine reads_command 2 rfl (List.forall_mem_cons.mpr
    ⟨habbreviation, List.forall_mem_singleton.mpr hdefinition⟩) (reads_whole ?_)
  exact Parser.Reads.map (h.readsTerm c [] hc rfl) Command.evaluate

/-- A type that is spelled otherwise than the record without fields is read as a type. -/
theorem reads_command_of_type (h : DerivesType .type ls T) (hT : T ≠ .record [])
    (hc : c.Spells ls) : Parser.Reads command c (.showType T) [] := by
  rw [← List.append_nil ls] at hc
  have habbreviation : Parser.Fails (whole abbreviation) c := by
    refine fails_whole_abbreviation hc fun X ls' heq => h.mark_eq_not_mem ?_
    rw [List.append_nil] at heq
    simp [heq]
  have hdefinition : Parser.Fails (whole definition) c := by
    refine fails_whole_definition hc fun x ls' heq => ?_
    have hname : (ls ++ []).head?.any Lexeme.isName = false := h.head?_ne_name (by decide)
    rw [heq] at hname
    cases hname
  have hterm : Parser.Fails (whole (Command.evaluate <$> term)) c := by
    have hstops := (h.stopsBefore (by decide) hT hc).map Command.evaluate
    exact hstops.fails_bind fun _ c' l ls hc' _ => (fails_endOfText hc').bind _
  refine reads_command 3 rfl ?_ (reads_whole (Parser.Reads.map (h.readsType.type hc rfl) _))
  simpa only [commandAlternatives, List.take, List.forall_mem_cons] using
    ⟨habbreviation, hdefinition, hterm, List.forall_mem_nil _⟩

/-- What the grammar derives from lexemes as a command is read from them, if it is not the record
type without fields. -/
theorem DerivesCommand.reads {cmd : Command} (h : DerivesCommand ls cmd)
    (hcmd : cmd ≠ .showType (.record [])) (hc : c.Spells ls) :
    Parser.Reads command c cmd [] := by
  cases h with
  | @abbreviate X ls T h =>
    refine reads_command 0 rfl (List.forall_mem_nil _) (reads_whole ?_)
    refine (reads_typeName hc).bind fun c₁ hc₁ => (reads_mark hc₁).bind fun c₂ hc₂ => ?_
    rw [← List.append_nil ls] at hc₂
    exact (h.readsType.type hc₂ rfl).bind fun _ hc₃ => Parser.reads_pure hc₃
  | @define x ls t h =>
    have habbreviation := fails_whole_abbreviation hc (by simp)
    refine reads_command 1 rfl (List.forall_mem_singleton.mpr habbreviation) (reads_whole ?_)
    refine (reads_name hc).bind fun c₁ hc₁ => (reads_mark hc₁).bind fun c₂ hc₂ => ?_
    rw [← List.append_nil ls] at hc₂
    exact Parser.Reads.bind (h.readsTerm c₂ [] hc₂ rfl) fun _ hc₃ => Parser.reads_pure hc₃
  | evaluate h => exact reads_command_of_term h hc
  | showType h => exact reads_command_of_type h (fun hT => hcmd (hT ▸ rfl)) hc

end Grammar

end TypedLambda
