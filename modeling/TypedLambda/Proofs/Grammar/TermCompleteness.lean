import TypedLambda.Proofs.Grammar.Completeness

/-!
# Completeness of the parser for terms

Whatever the grammar derives from a sequence of lexemes as a term, the parser reads from a text that
lays it out. Selectors and arguments are read as long as they come, so a projection and an
application are read up to a lexeme that cannot go on with them, and so is a term.

A brace is the only lexeme with which two alternatives start. The fields of a record come first:
they do not fail at a pair, but no fields are read there, and then the closing brace is missing.

## Main definitions

* `Grammar.continuesTerm`: the lexemes that continue a term
* `Grammar.ReadsTerm`: what the parsers do with a term at each level

## Main results

* `Grammar.DerivesTerm.readsTerm`: what derives a term is read as this term
-/

namespace TypedLambda

namespace Grammar

variable {c : Cursor} {l : Lexeme} {ls ls' : List Lexeme}

/-! ## Constants and selectors -/

/-- Whether the lexeme starts with a digit. -/
def startsNumber : Lexeme → Bool
  | .number _ | .index _ => true
  | _ => false

theorem isDigit_head (hl : l.Legal) (h : startsNumber l = false) :
    l.chars.head?.any Char.isDigit = false := by
  have hword {cs : List Char} (hcs : cs.head?.any Text.isWordStart = true) :
      cs.head?.any Char.isDigit = false := by
    cases cs with
    | nil => rfl
    | cons a cs =>
      rw [List.head?_cons, Option.any_some, ← Bool.not_eq_true]
      intro hdigit
      rw [List.head?_cons, Option.any_some, Text.isWordStart_of_isDigit hdigit] at hcs
      cases hcs
  cases l with
  | number | index => cases h
  | literal => rfl
  | mark s =>
    have hmarks : ∀ s ∈ marks, s.toList.head?.any Char.isDigit = false := by decide
    exact hmarks s hl
  | keyword w =>
    have hkeywords : ∀ w ∈ keywords, w.toList.head?.any Text.isWordStart = true := by decide
    exact hword (hkeywords w hl)
  | name x => exact hword (Text.any_of_any (fun _ => Text.isWordStart_of_isNameStart) hl.1)
  | typeName X => exact hword (Text.any_of_any (fun _ => Text.isWordStart_of_isUpper) hl.1)

variable [DigitLimit]

theorem startsWith_number : Parser.StartsWith number startsNumber := by
  intro c ls hc hfirst
  apply fails_number hc
  intro l hl
  obtain ⟨ls', rfl⟩ := List.head?_eq_some_iff.mp hl
  exact isDigit_head hc.legal hfirst

theorem startsWith_stringLiteral : Parser.StartsWith stringLiteral Lexeme.isLiteral := by
  intro c ls hc hfirst
  apply fails_stringLiteral hc
  intro l hl hquote
  obtain ⟨ls', rfl⟩ := List.head?_eq_some_iff.mp hl
  have hlegal := hc.legal
  cases hw : l.isWord with
  | true => cases Lexeme.isNameChar_of_isWord hlegal hw '"' (List.mem_of_mem_head? hquote)
  | false =>
    cases l with
    | mark s =>
      have hmarks : ∀ s ∈ marks, s.toList.head? ≠ some '"' := by decide
      exact hmarks s hlegal hquote
    | literal => cases hfirst
    | _ => cases hw

theorem startsWith_index {i : String} (hi : i.toList.head?.any Char.isDigit = true) :
    Parser.StartsWith (mark i) startsNumber := by
  intro c ls hc hfirst
  have hne : i.toList ≠ [] := by
    intro hnil
    rw [hnil] at hi
    cases hi
  apply fails_mark_of_head? hne hc
  intro l hl hhead
  obtain ⟨ls', rfl⟩ := List.head?_eq_some_iff.mp hl
  rw [← hhead, isDigit_head hc.legal hfirst] at hi
  cases hi

theorem reads_selector_first (hc : c.Spells (.mark "." :: .index "1" :: ls)) :
    Parser.Reads selector c .first ls := by
  apply (reads_mark hc).bind
  intro c' hc'
  apply Parser.Reads.choice _ 0 rfl (List.forall_mem_nil _)
  exact (reads_mark_of_chars hc' rfl).bind fun _ hc'' => Parser.reads_pure hc''

theorem reads_selector_second (hc : c.Spells (.mark "." :: .index "2" :: ls)) :
    Parser.Reads selector c .second ls := by
  apply (reads_mark hc).bind
  intro c' hc'
  have hfails : Parser.Fails (mark "1") c' := by
    apply fails_mark_of_head? (by decide) hc'
    intro l hl
    obtain rfl := Option.some.inj hl
    decide
  refine Parser.Reads.choice _ 1 rfl (List.forall_mem_singleton.mpr (hfails.bind _)) ?_
  exact (reads_mark_of_chars hc' rfl).bind fun _ hc'' => Parser.reads_pure hc''

theorem reads_selector_label {label : String} (hc : c.Spells (.mark "." :: .name label :: ls)) :
    Parser.Reads selector c (.label label) ls := by
  apply (reads_mark hc).bind
  intro c' hc'
  have hfirst : Parser.Fails (mark "1") c' := startsWith_index (by decide) c' _ hc' rfl
  have hsecond : Parser.Fails (mark "2") c' := startsWith_index (by decide) c' _ hc' rfl
  apply Parser.Reads.choice _ 2 rfl
  · exact List.forall_mem_cons.mpr ⟨hfirst.bind _, List.forall_mem_singleton.mpr (hsecond.bind _)⟩
  · exact (reads_name hc').map Selector.label

theorem startsWith_selector : Parser.StartsWith selector (Lexeme.isMark ".") :=
  (startsWith_mark "." rfl).bind _

/-! ## First lexemes -/

/-- The lexemes with which the alternatives for atomic terms start. -/
def atomicFirsts : List (Lexeme → Bool) :=
  [Lexeme.isKeyword "true", Lexeme.isKeyword "false", startsNumber, Lexeme.isLiteral,
    Lexeme.isKeyword "nil", Lexeme.isMark "\x7b", Lexeme.isMark "\x7b", Lexeme.isName,
    Lexeme.isMark "("]

/-- The alternatives for atomic terms. -/
def atomicAlternatives (p : Parser Term) : List (Parser Term) :=
  [do keyword "true"; pure (.bool true),
    do keyword "false"; pure (.bool false),
    Term.numeral <$> number,
    Term.string <$> stringLiteral,
    do keyword "nil"; Term.nil <$> between "[" "]" type,
    Term.record <$> between "\x7b" "\x7d" (fields "=" p),
    between "\x7b" "\x7d" do
      let t ← p
      mark ","
      let u ← p
      pure (.pair t u),
    Term.var <$> name,
    between "(" ")" p]

theorem atomic_eq (p : Parser Term) : atomic p = Parser.afterGap
    (Parser.choice (expected Description.atomic) (atomicAlternatives p)) := rfl

theorem atomic_starts (p : Parser Term) :
    List.Forall₂ Parser.StartsWith (atomicAlternatives p) atomicFirsts :=
  .cons ((startsWith_keyword "true" rfl).bind _) <|
  .cons ((startsWith_keyword "false" rfl).bind _) <|
  .cons (startsWith_number.map _) <|
  .cons (startsWith_stringLiteral.map _) <|
  .cons ((startsWith_keyword "nil" rfl).bind _) <|
  .cons (((startsWith_mark "\x7b" rfl).bind _).map _) <|
  .cons ((startsWith_mark "\x7b" rfl).bind _) <|
  .cons (startsWith_name.map _) <|
  .cons ((startsWith_mark "(" rfl).bind _) .nil

/-- The lexemes with which an argument starts. -/
def startsArgument (l : Lexeme) : Bool :=
  atomicFirsts.any (· l)

theorem startsWith_simple (p : Parser Term) : Parser.StartsWith (simple p) startsArgument :=
  (Parser.StartsWith.choice (atomic_starts p)).afterGap.bind _

/-- The lexemes with which the alternatives for the first part of an application start. -/
def applicationHeadFirsts : List (Lexeme → Bool) :=
  operators.map Lexeme.isKeyword ++ [startsArgument]

/-- The alternatives for the first part of an application. -/
def applicationHeadAlternatives (p : Parser Term) : List (Parser Term) :=
  unaryOperators.map (fun o => unary p o.1 o.2) ++
    binaryOperators.map (fun o => binary p o.1 o.2) ++ [simple p]

theorem applicationHead_eq (p : Parser Term) : applicationHead p =
    Parser.choice (expected Description.applicationHead) (applicationHeadAlternatives p) := rfl

theorem applicationHead_starts (p : Parser Term) :
    List.Forall₂ Parser.StartsWith (applicationHeadAlternatives p) applicationHeadFirsts :=
  .cons ((startsWith_keyword "succ" rfl).bind _) <|
  .cons ((startsWith_keyword "pred" rfl).bind _) <|
  .cons ((startsWith_keyword "iszero" rfl).bind _) <|
  .cons ((startsWith_keyword "fix" rfl).bind _) <|
  .cons ((startsWith_keyword "isnil" rfl).bind _) <|
  .cons ((startsWith_keyword "head" rfl).bind _) <|
  .cons ((startsWith_keyword "tail" rfl).bind _) <|
  .cons ((startsWith_keyword "concat" rfl).bind _) <|
  .cons ((startsWith_keyword "cons" rfl).bind _) <|
  .cons (startsWith_simple p) .nil

/-- The keywords with which a function starts. -/
def functionFirsts : List (Lexeme → Bool) :=
  [Lexeme.isKeyword "lambda", Lexeme.isKeyword "L"]

theorem functionStart_starts :
    List.Forall₂ Parser.StartsWith [keyword "lambda", keyword "L"] functionFirsts :=
  .cons (startsWith_keyword "lambda" rfl) <| .cons (startsWith_keyword "L" rfl) .nil

/-- The lexemes with which the alternatives for terms start. -/
def termFirsts : List (Lexeme → Bool) :=
  [fun l => functionFirsts.any (· l), Lexeme.isKeyword "if", Lexeme.isKeyword "letrec",
    Lexeme.isKeyword "let", fun l => applicationHeadFirsts.any (· l)]

/-- The alternatives for terms. -/
def termAlternatives (p : Parser Term) : List (Parser Term) :=
  [function p, conditional p, letRec p, letIn p, application p]

theorem termRule_eq (p : Parser Term) : termRule p = Parser.afterGap
    (Parser.choice (expected Description.term) (termAlternatives p)) := rfl

theorem term_starts (p : Parser Term) :
    List.Forall₂ Parser.StartsWith (termAlternatives p) termFirsts :=
  .cons ((Parser.StartsWith.choice functionStart_starts).bind _) <|
  .cons ((startsWith_keyword "if" rfl).bind _) <|
  .cons ((startsWith_keyword "letrec" rfl).bind _) <|
  .cons ((startsWith_keyword "let" rfl).bind _) <|
  .cons ((Parser.StartsWith.choice (applicationHead_starts p)).bind _) .nil

omit [DigitLimit] in
/-- An atomic term does not start with an operator. -/
theorem not_operator_of_starts (h : startsAtomic l = true) :
    (applicationHeadFirsts.take 9).all (fun first => !first l) = true := by
  cases l with
  | keyword w =>
    have hconstants : ∀ w ∈ constants,
        (applicationHeadFirsts.take 9).all (fun first => !first (.keyword w)) = true := by decide
    exact hconstants w (of_decide_eq_true h)
  | typeName | index => cases h
  | _ => rfl

omit [DigitLimit] in
/-- An atomic term does not start with a point. -/
theorem isMark_of_starts (h : startsAtomic l = true) : l.isMark "." = false := by
  rw [← Bool.not_eq_true]
  intro hpoint
  cases l with
  | mark s =>
    obtain rfl := of_decide_eq_true hpoint
    cases h
  | _ => cases hpoint

omit [DigitLimit] in
/-- An application does not start with a keyword of the other terms. -/
theorem not_binder_of_starts (h : TermLevel.application.starts l = true) :
    (termFirsts.take 4).all (fun first => !first l) = true := by
  have hkeywords : ∀ w ∈ constants ++ operators,
      (termFirsts.take 4).all (fun first => !first (.keyword w)) = true := by decide
  rcases Bool.or_eq_true_iff.mp h with h | h
  · cases l with
    | keyword w => exact hkeywords w (List.mem_append_left _ (of_decide_eq_true h))
    | typeName | index => cases h
    | _ => rfl
  · obtain ⟨w, hw, hl⟩ := List.any_eq_true.mp h
    obtain rfl := Lexeme.eq_keyword_of_isKeyword hl
    exact hkeywords w (List.mem_append_right _ hw)

/-! ## Alternatives -/

theorem reads_atomic {p : Parser Term} {t : Term} (k : Nat)
    (hk : (atomicAlternatives term)[k]? = some p) (hc : c.Spells (l :: ls))
    (hfirst : (atomicFirsts.take k).all (fun first => !first l) = true)
    (h : ∀ c', c'.Spells (l :: ls) → Parser.Reads p c' t ls') :
    Parser.Reads (atomic term) c t ls' := by
  rw [atomic_eq]
  exact Parser.Reads.choice_of_starts (atomic_starts term) k hk hc.skipGap hfirst (h _ hc.skipGap)

theorem reads_applicationHead {p : Parser Term} {t : Term} (k : Nat)
    (hk : (applicationHeadAlternatives term)[k]? = some p) (hc : c.Spells (l :: ls))
    (hfirst : (applicationHeadFirsts.take k).all (fun first => !first l) = true)
    (h : Parser.Reads p c t ls') : Parser.Reads (applicationHead term) c t ls' := by
  rw [applicationHead_eq]
  exact Parser.Reads.choice_of_starts (applicationHead_starts term) k hk hc hfirst h

theorem reads_term {p : Parser Term} {t : Term} (k : Nat)
    (hk : (termAlternatives term)[k]? = some p) (hc : c.Spells (l :: ls))
    (hfirst : (termFirsts.take k).all (fun first => !first l) = true)
    (h : ∀ c', c'.Spells (l :: ls) → Parser.Reads p c' t ls') : Parser.Reads term c t ls' := by
  have hrule : Parser.Reads (termRule term) c t ls' := by
    rw [termRule_eq]
    exact Parser.Reads.choice_of_starts (term_starts term) k hk hc.skipGap hfirst (h _ hc.skipGap)
  obtain ⟨c', hc', hspells⟩ := hrule
  exact ⟨c', (term_apply c).trans hc', hspells⟩

/-- An operator has an alternative of its own, and no other one starts with it. -/
theorem exists_unary_alternative {w : String} {build : Term → Term}
    (hw : (w, build) ∈ unaryOperators) (p : Parser Term) :
    ∃ k, (applicationHeadAlternatives p)[k]? = some (unary p w build) ∧
      (applicationHeadFirsts.take k).all (fun first => !first (.keyword w)) = true := by
  simp only [unaryOperators, List.mem_cons, Prod.mk.injEq, List.not_mem_nil, or_false] at hw
  rcases hw with ⟨rfl, rfl⟩ | ⟨rfl, rfl⟩ | ⟨rfl, rfl⟩ | ⟨rfl, rfl⟩ | ⟨rfl, rfl⟩ | ⟨rfl, rfl⟩ |
    ⟨rfl, rfl⟩
  exacts [⟨0, rfl, rfl⟩, ⟨1, rfl, rfl⟩, ⟨2, rfl, rfl⟩, ⟨3, rfl, rfl⟩, ⟨4, rfl, rfl⟩, ⟨5, rfl, rfl⟩,
    ⟨6, rfl, rfl⟩]

theorem exists_binary_alternative {w : String} {build : Term → Term → Term}
    (hw : (w, build) ∈ binaryOperators) (p : Parser Term) :
    ∃ k, (applicationHeadAlternatives p)[k]? = some (binary p w build) ∧
      (applicationHeadFirsts.take k).all (fun first => !first (.keyword w)) = true := by
  simp only [binaryOperators, List.mem_cons, Prod.mk.injEq, List.not_mem_nil, or_false] at hw
  rcases hw with ⟨rfl, rfl⟩ | ⟨rfl, rfl⟩
  exacts [⟨7, rfl, rfl⟩, ⟨8, rfl, rfl⟩]

/-! ## Terms -/

/-- The lexemes that continue a term. -/
def continuesTerm (l : Lexeme) : Bool :=
  l.isMark "." || startsArgument l

omit [DigitLimit] in
theorem any_of_continuesTerm (h : ls.head?.any continuesTerm = false) :
    ls.head?.any (Lexeme.isMark ".") = false ∧ ls.head?.any startsArgument = false := by
  cases hl : ls.head? with
  | none => exact ⟨rfl, rfl⟩
  | some l =>
    rw [hl, Option.any_some] at h
    exact Bool.or_eq_false_iff.mp h

/-- What the parsers do with lexemes that are a term at this level. At the levels of chains they
read the parts, and an application and a term must not be continued by what comes behind. -/
def ReadsTerm : TermLevel → List Lexeme → Term → Prop
  | .fields, ls, t => ∃ fs, t = .record fs ∧ ReadsFields "=" term ls fs
  | .atomic, ls, t => ∀ c ls', c.Spells (ls ++ ls') → Parser.Reads (atomic term) c t ls'
  | .simple, ls, t => ∀ c ls', c.Spells (ls ++ ls') →
      Parser.ReadsChain (atomic term) selector Selector.apply c t ls'
  | .application, ls, t => ∀ c ls', c.Spells (ls ++ ls') →
      ls'.head?.any (Lexeme.isMark ".") = false →
      Parser.ReadsChain (applicationHead term) (simple term) .app c t ls'
  | .term, ls, t => ∀ c ls', c.Spells (ls ++ ls') → ls'.head?.any continuesTerm = false →
      Parser.Reads term c t ls'

theorem agree_inner (n : Nat) : Parser.Agree 0 n term term :=
  (agree_term n).zero

namespace ReadsTerm

variable {t : Term}

theorem simple (h : ReadsTerm .simple ls t) (hc : c.Spells (ls ++ ls'))
    (hls' : ls'.head?.any (Lexeme.isMark ".") = false) : Parser.Reads (simple term) c t ls' := by
  have hagree (n : Nat) : Parser.Agree 1 n selector selector := (agree_selector n).pred
  apply (h c ls' hc).reads hagree
  intro c' hc'
  exact startsWith_selector c' ls' hc' hls'

theorem application (h : ReadsTerm .application ls t) (hc : c.Spells (ls ++ ls'))
    (hls' : ls'.head?.any continuesTerm = false) : Parser.Reads (application term) c t ls' := by
  obtain ⟨hpoint, hargument⟩ := any_of_continuesTerm hls'
  have hagree (n : Nat) : Parser.Agree 1 n (Grammar.simple term) (Grammar.simple term) :=
    (agree_simple (agree_inner n)).pred
  apply (h c ls' hc hpoint).reads hagree
  intro c' hc'
  exact startsWith_simple term c' ls' hc' hargument

theorem item (h : ReadsTerm .term ls t) : ReadsItem Grammar.term ls t := by
  intro s c ls' hs hc
  apply h c _ hc
  rcases hs with rfl | rfl <;> rfl

end ReadsTerm

/-! ## Pairs -/

/-- In front of a term and a comma no fields can be read between braces. -/
theorem fails_between_fields {t : Term} (ht : DerivesTerm .term ls t)
    (hc : c.Spells (.mark "\x7b" :: (ls ++ .mark "," :: ls'))) :
    Parser.Fails (between "\x7b" "\x7d" (fields "=" term)) c := by
  have hfield : ∀ x rest, ls ++ .mark "," :: ls' ≠ .name x :: .mark "=" :: rest :=
    ht.ne_field (by decide) (by simp)
  have hclosing : (ls ++ .mark "," :: ls').head? ≠ some (.mark "\x7d") := by
    obtain ⟨l, rest, rfl, hl⟩ := ht.exists_starts
    intro heq
    obtain rfl := Option.some.inj heq
    cases hl
  apply (reads_mark hc).fails_bind
  intro c₁ hc₁
  apply (reads_fields_nil hc₁ (fails_field (by decide) hc₁ hfield)).fails_bind
  intro c₂ hc₂
  exact (fails_mark (by decide) hc₂ hclosing).bind _

theorem reads_pair {t u : Term} {rest : List Lexeme} (hder : DerivesTerm .term ls t)
    (ht : ReadsTerm .term ls t) (hu : ReadsTerm .term ls' u)
    (hc : c.Spells (.mark "\x7b" :: (ls ++ .mark "," :: (ls' ++ .mark "\x7d" :: rest)))) :
    Parser.Reads (atomic term) c (.pair t u) rest := by
  have hc' := hc.skipGap
  -- the first five alternatives fail at the brace, the records only behind the first term
  have hbefore := Parser.fails_take (atomic_starts term) 5 hc' rfl
  have hrecord := (fails_between_fields hder hc').map Term.record
  rw [atomic_eq]
  refine Parser.Reads.choice _ 6 rfl
    (List.forall_mem_append.mpr ⟨hbefore, List.forall_mem_singleton.mpr hrecord⟩) ?_
  refine (reads_mark hc').bind fun c₁ hc₁ => ?_
  have hinner : Parser.Reads (do
      let t ← term
      mark ","
      let u ← term
      pure (Term.pair t u)) c₁ (.pair t u) (.mark "\x7d" :: rest) :=
    (ht c₁ _ hc₁ rfl).bind fun _ hc₂ => (reads_mark hc₂).bind fun c₃ hc₃ =>
      (hu c₃ _ hc₃ rfl).bind fun _ hc₄ => Parser.reads_pure hc₄
  exact hinner.bind fun _ hc₅ => (reads_mark hc₅).bind fun _ hc₆ => Parser.reads_pure hc₆

/-! ## Completeness -/

/-- What the grammar derives from lexemes as a term is read from them. -/
theorem DerivesTerm.readsTerm {level : TermLevel} {t : Term} (h : DerivesTerm level ls t) :
    ReadsTerm level ls t := by
  induction h with
  | true =>
    intro c ls' hc
    apply reads_atomic 0 rfl hc rfl
    intro c' hc'
    exact (reads_keyword hc').bind fun _ hc'' => Parser.reads_pure hc''
  | false =>
    intro c ls' hc
    apply reads_atomic 1 rfl hc rfl
    intro c' hc'
    exact (reads_keyword hc').bind fun _ hc'' => Parser.reads_pure hc''
  | number digits =>
    intro c ls' hc
    exact reads_atomic 2 rfl hc rfl fun c' hc' => (reads_number hc').map Term.numeral
  | string content =>
    intro c ls' hc
    exact reads_atomic 3 rfl hc rfl fun c' hc' => (reads_stringLiteral hc').map Term.string
  | nil hA =>
    intro c ls' hc
    rw [List.cons_append, List.cons_append, List.append_assoc] at hc
    apply reads_atomic 4 rfl hc rfl
    intro c' hc'
    refine (reads_keyword hc').bind fun c₁ hc₁ => Parser.Reads.map ?_ Term.nil
    exact reads_between hc₁ fun c₂ hc₂ => hA.readsType.type hc₂ rfl
  | emptyRecord =>
    intro c ls' hc
    apply reads_atomic 5 rfl hc rfl
    intro c' hc'
    exact (reads_between_nil (by decide) hc').map Term.record
  | record _ ih =>
    obtain ⟨fs, rfl, hfields⟩ := ih
    intro c ls' hc
    rw [List.cons_append, List.append_assoc] at hc
    exact reads_atomic 5 rfl hc rfl fun c' hc' => (hfields.between hc').map Term.record
  | pair ht _ iht ihu =>
    intro c ls' hc
    rw [List.cons_append, List.append_assoc, List.cons_append, List.append_assoc] at hc
    exact reads_pair ht iht ihu hc
  | var x =>
    intro c ls' hc
    exact reads_atomic 7 rfl hc rfl fun c' hc' => (reads_name hc').map Term.var
  | paren _ ih =>
    intro c ls' hc
    rw [List.cons_append, List.append_assoc] at hc
    apply reads_atomic 8 rfl hc rfl
    intro c' hc'
    exact reads_between hc' fun c₁ hc₁ => ih c₁ _ hc₁ rfl
  | ofAtomic _ ih =>
    intro c ls' hc
    exact (ih c ls' hc).chain
  | fst _ ih =>
    intro c ls' hc
    rw [List.append_assoc] at hc
    exact (ih c _ hc).snoc fun c' hc' => reads_selector_first hc'
  | snd _ ih =>
    intro c ls' hc
    rw [List.append_assoc] at hc
    exact (ih c _ hc).snoc fun c' hc' => reads_selector_second hc'
  | proj label _ ih =>
    intro c ls' hc
    rw [List.append_assoc] at hc
    exact (ih c _ hc).snoc fun c' hc' => reads_selector_label hc'
  | ofSimple h ih =>
    intro c ls' hc hls'
    obtain ⟨l, rest, rfl, hl⟩ := h.exists_starts
    have hread := ih.simple hc hls'
    exact (reads_applicationHead 9 rfl hc (not_operator_of_starts hl) hread).chain
  | unary hw _ ih =>
    intro c ls' hc hls'
    obtain ⟨k, hk, hfirst⟩ := exists_unary_alternative hw term
    apply Parser.Reads.chain
    apply reads_applicationHead k hk hc hfirst
    exact (reads_keyword hc).bind fun c₁ hc₁ => (ih.simple hc₁ hls').bind fun _ hc₂ =>
      Parser.reads_pure hc₂
  | binary hw _ hu iht ihu =>
    intro c ls' hc hls'
    rw [List.cons_append, List.append_assoc] at hc
    obtain ⟨k, hk, hfirst⟩ := exists_binary_alternative hw term
    obtain ⟨l, rest, rfl, hl⟩ := hu.exists_starts
    have hpoint : ((l :: rest) ++ ls').head?.any (Lexeme.isMark ".") = Bool.false :=
      isMark_of_starts hl
    apply Parser.Reads.chain
    apply reads_applicationHead k hk hc hfirst
    exact (reads_keyword hc).bind fun c₁ hc₁ => (iht.simple hc₁ hpoint).bind fun c₂ hc₂ =>
      (ihu.simple hc₂ hls').bind fun _ hc₃ => Parser.reads_pure hc₃
  | app _ hu iht ihu =>
    intro c ls' hc hls'
    rw [List.append_assoc] at hc
    obtain ⟨l, rest, rfl, hl⟩ := hu.exists_starts
    have hpoint : ((l :: rest) ++ ls').head?.any (Lexeme.isMark ".") = Bool.false :=
      isMark_of_starts hl
    exact (iht c _ hc hpoint).snoc fun c' hc' => ihu.simple hc' hls'
  | ofApplication h ih =>
    intro c ls' hc hls'
    obtain ⟨l, rest, rfl, hl⟩ := h.exists_starts
    apply reads_term 4 rfl hc (not_binder_of_starts hl)
    intro c' hc'
    exact ih.application hc' hls'
  | lam hw x hT _ iht =>
    intro c ls' hc hls'
    rw [List.cons_append, List.cons_append, List.cons_append, List.append_assoc] at hc
    apply reads_term 0 rfl hc rfl
    intro c' hc'
    refine Parser.Reads.bind (a := ()) ?_ fun c₁ hc₁ => (reads_name hc₁).bind fun c₂ hc₂ =>
      (reads_mark hc₂).bind fun c₃ hc₃ => (hT.readsType.type hc₃ rfl).bind fun c₄ hc₄ =>
      (reads_mark hc₄).bind fun c₅ hc₅ => (iht c₅ ls' hc₅ hls').bind fun _ hc₆ =>
      Parser.reads_pure hc₆
    rcases hw with rfl | rfl
    · exact .choice_of_starts functionStart_starts 0 rfl hc' rfl (reads_keyword hc')
    · exact .choice_of_starts functionStart_starts 1 rfl hc' rfl (reads_keyword hc')
  | ite _ _ _ iht ihu ihv =>
    intro c ls' hc hls'
    rw [List.cons_append, List.append_assoc, List.cons_append, List.append_assoc,
      List.cons_append] at hc
    apply reads_term 1 rfl hc rfl
    intro c' hc'
    exact (reads_keyword hc').bind fun c₁ hc₁ => (iht c₁ _ hc₁ rfl).bind fun c₂ hc₂ =>
      (reads_keyword hc₂).bind fun c₃ hc₃ => (ihu c₃ _ hc₃ rfl).bind fun c₄ hc₄ =>
      (reads_keyword hc₄).bind fun c₅ hc₅ => (ihv c₅ ls' hc₅ hls').bind fun _ hc₆ =>
      Parser.reads_pure hc₆
  | letRec f hT _ _ iht ihu =>
    intro c ls' hc hls'
    rw [List.cons_append, List.cons_append, List.cons_append, List.append_assoc,
      List.cons_append, List.append_assoc, List.cons_append] at hc
    apply reads_term 2 rfl hc rfl
    intro c' hc'
    exact (reads_keyword hc').bind fun c₁ hc₁ => (reads_name hc₁).bind fun c₂ hc₂ =>
      (reads_mark hc₂).bind fun c₃ hc₃ => (hT.readsType.type hc₃ rfl).bind fun c₄ hc₄ =>
      (reads_mark hc₄).bind fun c₅ hc₅ => (iht c₅ _ hc₅ rfl).bind fun c₆ hc₆ =>
      (reads_keyword hc₆).bind fun c₇ hc₇ => (ihu c₇ ls' hc₇ hls').bind fun _ hc₈ =>
      Parser.reads_pure hc₈
  | letIn x _ _ iht ihu =>
    intro c ls' hc hls'
    rw [List.cons_append, List.cons_append, List.cons_append, List.append_assoc,
      List.cons_append] at hc
    apply reads_term 3 rfl hc rfl
    intro c' hc'
    exact (reads_keyword hc').bind fun c₁ hc₁ => (reads_name hc₁).bind fun c₂ hc₂ =>
      (reads_mark hc₂).bind fun c₃ hc₃ => (iht c₃ _ hc₃ rfl).bind fun c₄ hc₄ =>
      (reads_keyword hc₄).bind fun c₅ hc₅ => (ihu c₅ ls' hc₅ hls').bind fun _ hc₆ =>
      Parser.reads_pure hc₆
  | field label _ ih => exact ⟨_, rfl, ih.item.fields⟩
  | fieldCons label _ _ ih ihs =>
    obtain ⟨fs, heq, hfields⟩ := ihs
    obtain rfl := Term.record.inj heq
    exact ⟨_, rfl, .cons agree_inner ih.item hfields⟩

end Grammar

end TypedLambda
