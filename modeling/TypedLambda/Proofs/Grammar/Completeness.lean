import TypedLambda.Proofs.Grammar.Derivation
import TypedLambda.Proofs.Grammar.Reads
import TypedLambda.Proofs.Grammar.Recursion

/-!
# Completeness of the parser for types

Whatever the grammar derives from a sequence of lexemes as a type, the parser reads from a text that
lays it out, provided that what comes behind does not continue it: an ordered choice never takes a
wrong alternative, and no repetition goes too far. The proof follows the derivation. Of a chain the
items are read until no further one comes, so at the levels of chains the claim is about the items.

## Main definitions

* `Grammar.ReadsFields`: fields between braces are read
* `Grammar.ReadsType`: what the parsers do with a type at each level

## Main results

* `Grammar.DerivesType.readsType`: what derives a type is read as this type
* `Grammar.ReadsType.type`: the same of the parser for types
-/

namespace TypedLambda

namespace Grammar

variable {α : Type} {c : Cursor} {ls ls' : List Lexeme}

/-! ## First lexemes -/

theorem head?_ne_of_any {first : Lexeme → Bool} {l : Lexeme} (h : ls.head?.any first = false)
    (hl : first l = true) : ls.head? ≠ some l := by
  intro heq
  rw [heq, Option.any_some, hl] at h
  cases h

variable [DigitLimit]

theorem startsWith_mark (s : String) (hs : marks.contains s = true) :
    Parser.StartsWith (mark s) (Lexeme.isMark s) := fun _ _ hc hfirst =>
  fails_mark (List.contains_iff_mem.mp hs) hc (head?_ne_of_any hfirst (decide_eq_true rfl))

theorem startsWith_keyword (w : String) (hw : keywords.contains w = true) :
    Parser.StartsWith (keyword w) (Lexeme.isKeyword w) := fun _ _ hc hfirst =>
  fails_keyword (List.contains_iff_mem.mp hw) hc (head?_ne_of_any hfirst (decide_eq_true rfl))

theorem startsWith_name : Parser.StartsWith name Lexeme.isName := fun _ _ hc hfirst =>
  fails_name hc fun _ => head?_ne_of_any hfirst rfl

theorem startsWith_typeName : Parser.StartsWith typeName Lexeme.isTypeName := fun _ _ hc hfirst =>
  fails_typeName hc fun _ => head?_ne_of_any hfirst rfl

/-! ## Brackets and fields -/

/-- A part that starts with a label and a mark fails where these two do not come first. -/
theorem fails_label {label : Parser String} {lexeme : String → Lexeme} {sep : String}
    {f : String → Parser α}
    (hreads : ∀ {c : Cursor} {ls : List Lexeme} {x : String}, c.Spells (lexeme x :: ls) →
      Parser.Reads label c x ls)
    (hfails : ∀ {c : Cursor} {ls : List Lexeme}, c.Spells ls →
      (∀ x, ls.head? ≠ some (lexeme x)) → Parser.Fails label c)
    (hsep : sep ∈ marks) (hc : c.Spells ls) (hne : ∀ x ls', ls ≠ lexeme x :: .mark sep :: ls') :
    Parser.Fails (do let x ← label; mark sep; f x) c := by
  by_cases h : ∃ x rest, ls = lexeme x :: rest
  · obtain ⟨x, rest, rfl⟩ := h
    have hmark : rest.head? ≠ some (.mark sep) := by
      intro heq
      obtain ⟨ls', rfl⟩ := List.head?_eq_some_iff.mp heq
      exact hne x ls' rfl
    exact (hreads hc).fails_bind fun c' hc' => (fails_mark hsep hc' hmark).bind _
  · refine (hfails hc fun x hx => h ?_).bind _
    obtain ⟨rest, rfl⟩ := List.head?_eq_some_iff.mp hx
    exact ⟨x, rest, rfl⟩

theorem reads_between {opening closing : String} {p : Parser α} {a : α}
    (hc : c.Spells (.mark opening :: (ls ++ .mark closing :: ls')))
    (h : ∀ c', c'.Spells (ls ++ .mark closing :: ls') →
      Parser.Reads p c' a (.mark closing :: ls')) :
    Parser.Reads (between opening closing p) c a ls' :=
  (reads_mark hc).bind fun c₁ hc₁ => (h c₁ hc₁).bind fun _ hc₂ =>
    (reads_mark hc₂).bind fun _ hc₃ => Parser.reads_pure hc₃

section Fields

variable {sep label : String} {p : Parser α} {a : α} {fs : List (String × α)}

theorem reads_field (hc : c.Spells (.name label :: .mark sep :: ls))
    (h : ∀ c', c'.Spells ls → Parser.Reads p c' a ls') :
    Parser.Reads (field sep p) c (label, a) ls' :=
  (reads_name hc).bind fun _ hc₁ => (reads_mark hc₁).bind fun c₂ hc₂ =>
    (h c₂ hc₂).bind fun _ hc₃ => Parser.reads_pure hc₃

/-- A field starts with a label and the mark behind it. -/
theorem fails_field (hsep : sep ∈ marks) (hc : c.Spells ls)
    (hne : ∀ x ls', ls ≠ .name x :: .mark sep :: ls') : Parser.Fails (field sep p) c :=
  fails_label reads_name fails_name hsep hc hne

/-- Without a field, no fields are read. -/
theorem reads_fields_nil (hc : c.Spells ls) (h : Parser.Fails (field sep p) c) :
    Parser.Reads (fields sep p) c [] ls :=
  ⟨c, Parser.optional_eq_of_fails ((h.bind _).bind _), hc⟩

/-- From these lexemes the fields are read, in front of a closing brace. -/
def ReadsFields (sep : String) (p : Parser α) (ls : List Lexeme) (fs : List (String × α)) : Prop :=
  ∃ f fs', fs = f :: fs' ∧ ∀ c ls', c.Spells (ls ++ .mark "\x7d" :: ls') →
    Parser.Reads (Parser.sepBy (field sep p) (mark ",")) c (f, fs') (.mark "\x7d" :: ls')

/-- From these lexemes the part is read, in front of a comma or a closing brace. -/
def ReadsItem (p : Parser α) (ls : List Lexeme) (a : α) : Prop :=
  ∀ s c ls', s = "," ∨ s = "\x7d" → c.Spells (ls ++ .mark s :: ls') →
    Parser.Reads p c a (.mark s :: ls')

theorem ReadsItem.fields (h : ReadsItem p ls a) :
    ReadsFields sep p (.name label :: .mark sep :: ls) [(label, a)] := by
  refine ⟨(label, a), [], rfl, fun c ls' hc => ?_⟩
  have hfield := reads_field hc fun c' hc' => h "\x7d" c' ls' (.inr rfl) hc'
  apply hfield.sepBy_one
  intro c' hc'
  exact fails_mark (by decide) hc' (by simp)

theorem ReadsFields.cons (hp : ∀ n, Parser.Agree 0 n p p) (h : ReadsItem p ls a)
    (hs : ReadsFields sep p ls' fs) :
    ReadsFields sep p (.name label :: .mark sep :: (ls ++ .mark "," :: ls'))
      ((label, a) :: fs) := by
  obtain ⟨f, fs', rfl, hs⟩ := hs
  refine ⟨(label, a), f :: fs', rfl, fun c rest hc => ?_⟩
  rw [List.cons_append, List.cons_append, List.append_assoc, List.cons_append] at hc
  have hfield := reads_field hc fun c' hc' => h "," c' _ (.inl rfl) hc'
  have hagree (n : Nat) : Parser.Agree 1 n (field sep p) (field sep p) :=
    (agree_field sep (hp n)).pred
  have hcomma (n : Nat) : Parser.Agree 0 n (mark ",") (mark ",") := (agree_mark "," n).zero
  exact hfield.sepBy_cons hagree hcomma (fun _ hc' => reads_mark hc') fun c' hc' => hs c' rest hc'

/-- Fields in braces. -/
theorem ReadsFields.between (hs : ReadsFields sep p ls fs)
    (hc : c.Spells (.mark "\x7b" :: (ls ++ .mark "\x7d" :: ls'))) :
    Parser.Reads (between "\x7b" "\x7d" (fields sep p)) c fs ls' := by
  obtain ⟨f, fs', rfl, hs⟩ := hs
  apply reads_between hc
  intro c' hc'
  have hseq : Parser.Reads (do
      let r ← Parser.sepBy (field sep p) (mark ",")
      pure (r.1 :: r.2)) c' (f :: fs') (.mark "\x7d" :: ls') :=
    (hs c' ls' hc').bind fun _ hc'' => Parser.reads_pure hc''
  exact hseq.optional

/-- No fields in braces. -/
theorem reads_between_nil (hsep : sep ∈ marks)
    (hc : c.Spells (.mark "\x7b" :: .mark "\x7d" :: ls)) :
    Parser.Reads (between "\x7b" "\x7d" (fields sep p)) c [] ls := by
  refine (reads_mark hc).bind fun c' hc' => ?_
  have hnil := reads_fields_nil hc' (p := p) (fails_field hsep hc' (by simp))
  exact hnil.bind fun _ hc₂ => (reads_mark hc₂).bind fun _ hc₃ => Parser.reads_pure hc₃

end Fields

/-! ## Types -/

/-- The lexemes with which the alternatives for atomic types start. -/
def atomicTypeFirsts : List (Lexeme → Bool) :=
  [Lexeme.isKeyword "Bool", Lexeme.isKeyword "Nat", Lexeme.isKeyword "String",
    Lexeme.isKeyword "List", Lexeme.isMark "\x7b", Lexeme.isTypeName, Lexeme.isMark "("]

theorem atomicType_starts (p : Parser Ty) : List.Forall₂ Parser.StartsWith
    [do keyword "Bool"; pure Ty.bool,
      do keyword "Nat"; pure Ty.nat,
      do keyword "String"; pure Ty.string,
      do keyword "List"; Ty.list <$> between "[" "]" p,
      Ty.record <$> between "\x7b" "\x7d" (fields ":" p),
      Ty.named <$> typeName,
      between "(" ")" p] atomicTypeFirsts :=
  .cons ((startsWith_keyword "Bool" rfl).bind _) <|
  .cons ((startsWith_keyword "Nat" rfl).bind _) <|
  .cons ((startsWith_keyword "String" rfl).bind _) <|
  .cons ((startsWith_keyword "List" rfl).bind _) <|
  .cons (((startsWith_mark "\x7b" rfl).bind _).map _) <|
  .cons (startsWith_typeName.map _) <|
  .cons ((startsWith_mark "(" rfl).bind _) .nil

/-- The lexemes that continue a type. -/
def continuesType (l : Lexeme) : Bool :=
  l.isMark "*" || l.isMark "->"

omit [DigitLimit] in
theorem any_isMark_of_continuesType (h : ls.head?.any continuesType = false) :
    ls.head?.any (Lexeme.isMark "*") = false ∧ ls.head?.any (Lexeme.isMark "->") = false := by
  cases hl : ls.head? with
  | none => exact ⟨rfl, rfl⟩
  | some l =>
    rw [hl, Option.any_some] at h
    exact Bool.or_eq_false_iff.mp h

/-- What the parsers do with lexemes that are a type at this level, when what comes behind does not
continue them: of a chain they read the items. -/
def ReadsType : TypeLevel → List Lexeme → Ty → Prop
  | .fields, ls, T => ∃ fs, T = .record fs ∧ ReadsFields ":" type ls fs
  | .atomic, ls, T => ∀ c ls', c.Spells (ls ++ ls') → Parser.Reads (atomicType type) c T ls'
  | .product, ls, T => ∃ A As, chainRight .prod A As = T ∧ ∀ c ls', c.Spells (ls ++ ls') →
      ls'.head?.any (Lexeme.isMark "*") = false →
      Parser.Reads (Parser.sepBy (atomicType type) (mark "*")) c (A, As) ls'
  | .type, ls, T => ∃ A As, chainRight .arrow A As = T ∧ ∀ c ls', c.Spells (ls ++ ls') →
      ls'.head?.any continuesType = false →
      Parser.Reads (Parser.sepBy (productType type) (mark "->")) c (A, As) ls'

namespace ReadsType

variable {T : Ty}

theorem productType (h : ReadsType .product ls T) (hc : c.Spells (ls ++ ls'))
    (hls' : ls'.head?.any (Lexeme.isMark "*") = false) :
    Parser.Reads (productType type) c T ls' := by
  obtain ⟨A, As, rfl, hread⟩ := h
  exact (hread c ls' hc hls').bind fun _ hc' => Parser.reads_pure hc'

theorem type (h : ReadsType .type ls T) (hc : c.Spells (ls ++ ls'))
    (hls' : ls'.head?.any continuesType = false) : Parser.Reads type c T ls' := by
  obtain ⟨A, As, rfl, hread⟩ := h
  have hrule : Parser.Reads (typeRule Grammar.type) c (chainRight .arrow A As) ls' :=
    (hread c ls' hc hls').bind fun _ hc' => Parser.reads_pure hc'
  obtain ⟨c', hc', hspells⟩ := hrule
  exact ⟨c', (type_apply c).trans hc', hspells⟩

theorem item (h : ReadsType .type ls T) : ReadsItem Grammar.type ls T := by
  intro s c ls' hs hc
  apply h.type hc
  rcases hs with rfl | rfl <;> rfl

end ReadsType

/-- What the grammar derives from lexemes as a type is read from them. -/
theorem DerivesType.readsType {level : TypeLevel} {T : Ty} (h : DerivesType level ls T) :
    ReadsType level ls T := by
  have hagree (n : Nat) : Parser.Agree 0 n type type := (agree_type n).zero
  have hmark (s : String) (n : Nat) : Parser.Agree 0 n (mark s) (mark s) := (agree_mark s n).zero
  have hstarts := atomicType_starts type
  induction h with
  | bool =>
    intro c ls' hc
    exact .choice_of_starts hstarts 0 rfl hc rfl <|
      (reads_keyword hc).bind fun _ hc' => Parser.reads_pure hc'
  | nat =>
    intro c ls' hc
    exact .choice_of_starts hstarts 1 rfl hc rfl <|
      (reads_keyword hc).bind fun _ hc' => Parser.reads_pure hc'
  | string =>
    intro c ls' hc
    exact .choice_of_starts hstarts 2 rfl hc rfl <|
      (reads_keyword hc).bind fun _ hc' => Parser.reads_pure hc'
  | list _ ih =>
    intro c ls' hc
    rw [List.cons_append, List.cons_append, List.append_assoc] at hc
    refine .choice_of_starts hstarts 3 rfl hc rfl ?_
    refine (reads_keyword hc).bind fun c₁ hc₁ => Parser.Reads.map ?_ Ty.list
    exact reads_between hc₁ fun c₂ hc₂ => ih.type hc₂ rfl
  | emptyRecord =>
    intro c ls' hc
    exact .choice_of_starts hstarts 4 rfl hc rfl ((reads_between_nil (by decide) hc).map Ty.record)
  | record _ ih =>
    obtain ⟨fs, rfl, hfields⟩ := ih
    intro c ls' hc
    rw [List.cons_append, List.append_assoc] at hc
    exact .choice_of_starts hstarts 4 rfl hc rfl ((hfields.between hc).map Ty.record)
  | named X =>
    intro c ls' hc
    exact .choice_of_starts hstarts 5 rfl hc rfl ((reads_typeName hc).map Ty.named)
  | paren _ ih =>
    intro c ls' hc
    rw [List.cons_append, List.append_assoc] at hc
    refine .choice_of_starts hstarts 6 rfl hc rfl ?_
    exact reads_between hc fun c₁ hc₁ => ih.type hc₁ rfl
  | @ofAtomic ls A _ ih =>
    refine ⟨A, [], rfl, fun c ls' hc hls' => ?_⟩
    apply (ih c ls' hc).sepBy_one
    intro c' hc'
    exact (startsWith_mark "*" rfl) c' ls' hc' hls'
  | @prod ls₁ ls₂ A B _ _ ihA ihB =>
    obtain ⟨B', Bs, rfl, hB⟩ := ihB
    refine ⟨A, B' :: Bs, rfl, fun c ls' hc hls' => ?_⟩
    rw [List.append_assoc] at hc
    have hitem (n : Nat) : Parser.Agree 1 n (atomicType type) (atomicType type) :=
      (agree_atomicType (hagree n)).pred
    exact (ihA c _ hc).sepBy_cons hitem (hmark "*") (fun _ hc₁ => reads_mark hc₁) fun c₂ hc₂ =>
      hB c₂ ls' hc₂ hls'
  | @ofProduct ls A _ ih =>
    refine ⟨A, [], rfl, fun c ls' hc hls' => ?_⟩
    obtain ⟨hstar, harrow⟩ := any_isMark_of_continuesType hls'
    apply (ih.productType hc hstar).sepBy_one
    intro c' hc'
    exact (startsWith_mark "->" rfl) c' ls' hc' harrow
  | @arrow ls₁ ls₂ A B _ _ ihA ihB =>
    obtain ⟨B', Bs, rfl, hB⟩ := ihB
    refine ⟨A, B' :: Bs, rfl, fun c ls' hc hls' => ?_⟩
    rw [List.append_assoc] at hc
    have hitem (n : Nat) : Parser.Agree 1 n (Grammar.productType type) (Grammar.productType type) :=
      (agree_productType (hagree n)).pred
    have hA := ihA.productType hc rfl
    exact hA.sepBy_cons hitem (hmark "->") (fun _ hc₁ => reads_mark hc₁) fun c₂ hc₂ =>
      hB c₂ ls' hc₂ hls'
  | field label _ ih => exact ⟨_, rfl, ih.item.fields⟩
  | fieldCons label _ _ ih ihs =>
    obtain ⟨fs, heq, hfields⟩ := ihs
    obtain rfl := Ty.record.inj heq
    exact ⟨_, rfl, .cons hagree ih.item hfields⟩

end Grammar

end TypedLambda
