import TypedLambda.Grammar.Command
import TypedLambda.Proofs.Grammar.Derivation
import TypedLambda.Proofs.Grammar.Names
import TypedLambda.Proofs.Grammar.Recursion
import TypedLambda.Proofs.Grammar.Spelling

/-!
# Soundness of the parser for types

Whatever the parser reads as a type, the grammar derives from the lexemes that the text lays out
there. The proof follows the parser. Each part that it reads is a stretch of the text that lays out
some lexemes, and stretches are put together as the parts are. A word is a lexeme only where no
other word runs up to it; in types, names stand at the beginning and behind marks only.

## Main definitions

* `Cursor.IsFree`: places at which no word has just ended
* `Cursor.Stretch`: the lexemes between two places
* `Parser.Yields`: parsers that read what can be derived from the lexemes in the text

## Main results

* `Grammar.yields_type`: what is read as a type is derived as a type
* `Grammar.exists_spells_of_whole_type`: the same of a whole text
-/

namespace TypedLambda

namespace Cursor

variable {c c' c'' : Cursor} {l : Lexeme} {ls ls' : List Lexeme}

/-! ## Free places -/

/-- No word ends in front of the place. -/
def IsFree (c : Cursor) : Prop :=
  c.prev.any Text.isNameChar = false

theorem isFree_start (text : List Char) : (start text).IsFree := rfl

/-- A place knows one character of its front, which will do for the front. -/
theorem behind_prev (c : Cursor) : c.Behind (c.prev.toList ++ c.rest) c.prev.toList where
  text_eq := rfl
  prev_eq := by cases c.prev <;> rfl

theorem IsFree.skipGap (h : c.IsFree) : c.skipGap.IsFree := by
  unfold IsFree at h ⊢
  rcases c.behind_prev.skipGap with ⟨hsame, -⟩ | ⟨gapped, hgapped, hlast⟩
  · rwa [hsame.prev_eq, ← c.behind_prev.prev_eq]
  · rwa [hgapped.prev_eq]

/-! ## Stretches -/

variable [DigitLimit]

/-- The text between the two places lays out the lexemes. -/
def Stretch (c : Cursor) (ls : List Lexeme) (c' : Cursor) : Prop :=
  ∀ ls', c'.Spells ls' → c.Spells (ls ++ ls')

theorem Stretch.refl (c : Cursor) : c.Stretch [] c :=
  fun _ hc => hc

theorem Stretch.trans (h : c.Stretch ls c') (h' : c'.Stretch ls' c'') :
    c.Stretch (ls ++ ls') c'' := by
  intro rest hrest
  rw [List.append_assoc]
  exact h _ (h' _ hrest)

/-- The gap ahead belongs to what is spelled behind it. -/
theorem spells_of_skipGap (h : c.skipGap.Spells ls) : c.Spells ls := by
  have hsplit : c.rest = c.rest.takeWhile Text.isGap ++ c.rest.dropWhile Text.isGap :=
    List.takeWhile_append_dropWhile.symm
  have hgap : ∀ x ∈ c.rest.takeWhile Text.isGap, Text.isGap x = true :=
    List.all_eq_true.mp List.all_takeWhile
  rw [skipGap_eq hgap (Grammar.any_head?_dropWhile _ _) hsplit] at h
  refine ⟨?_, h.short⟩
  rw [hsplit]
  exact h.layout.gap_append hgap

/-- A lexeme that stands behind the gap. -/
theorem stretch_lexeme {text front : List Char} (hl : l.Legal) (hshort : l.Short)
    (hc : c.skipGap.Behind text front) (hc' : c'.Behind text (front ++ l.chars))
    (hfront : l.isWord = true → front.getLast?.any Text.isNameChar = false) :
    c.Stretch [l] c' := by
  intro ls' hls'
  apply spells_of_skipGap
  have hrest : c.skipGap.rest = l.chars ++ c'.rest := by
    apply List.append_cancel_left
    rw [← hc.text_eq, hc'.text_eq, List.append_assoc]
  have hlast : c'.prev = l.chars.getLast? := by
    have hsome : l.chars.getLast?.isSome := List.getLast?_isSome.mpr (Lexeme.chars_ne_nil hl)
    rw [hc'.prev_eq, List.getLast?_append, Option.or_of_isSome hsome]
  refine ⟨?_, List.forall_mem_cons.mpr ⟨hshort, hls'.short⟩⟩
  have hlayout := hls'.layout
  rw [hlast] at hlayout
  rw [hrest, hc.prev_eq]
  exact .lexeme hl hfront hlayout

end Cursor

variable [DigitLimit]

namespace Parser

variable {α β : Type} {p : Parser α} {D : List Lexeme → α → Prop}

/-! ## Parsers -/

/-- What the parser reads from a free place is in `D` with the lexemes that stand there. -/
def Yields (p : Parser α) (D : List Lexeme → α → Prop) : Prop :=
  ∀ c r, c.IsFree → p c = .ok r → ∃ ls, D ls r.1 ∧ c.Stretch ls r.2

theorem Yields.map {f : α → β} {E : List Lexeme → β → Prop} (h : Yields p D)
    (hf : ∀ ls a, D ls a → E ls (f a)) : Yields (f <$> p) E := by
  rintro c ⟨_, c'⟩ hc hr
  obtain ⟨a, ha, rfl⟩ := map_eq_ok_iff.mp hr
  obtain ⟨ls, hD, hls⟩ := h c _ hc ha
  exact ⟨ls, hf ls a hD, hls⟩

theorem Yields.choice {reason : String} {ps : List (Parser α)} (h : ∀ p ∈ ps, Yields p D) :
    Yields (choice reason ps) D := by
  intro c r hc hr
  obtain ⟨p, hp, hr⟩ := exists_of_choice hr
  exact h p hp c r hc hr

theorem Yields.fix {rule : Parser α → Parser α} (h : ∀ p, Yields p D → Yields (rule p) D) :
    Yields (fix rule) D := by
  have unrolled (depth : Nat) : Yields (unroll rule depth) D := by
    induction depth with
    | zero => exact fun c r _ hr => nomatch hr
    | succ depth ih => exact h _ ih
  exact fun c r hc hr => unrolled _ c r hc hr

end Parser

namespace Grammar

open TypedLambda.Parser (Yields bind_eq_ok_iff map_eq_ok_iff)

/-! ## Lexemes -/

section Lexemes

variable {c : Cursor}

/-- No word ends with a mark. -/
theorem stretch_mark {s : String} {r : Unit × Cursor} (hs : s ∈ marks) (h : mark s c = .ok r) :
    c.Stretch [.mark s] r.2 ∧ r.2.IsFree := by
  obtain ⟨hpre, heq⟩ := mark_eq_ok_iff.mp h
  have hend := c.skipGap.behind_prev.advance hpre
  rw [heq] at hend
  constructor
  · exact Cursor.stretch_lexeme (l := .mark s) hs trivial c.skipGap.behind_prev hend nofun
  · have hsome : s.toList.getLast?.isSome :=
      List.getLast?_isSome.mpr (Lexeme.chars_ne_nil (l := .mark s) hs)
    rw [Cursor.IsFree, hend.prev_eq, List.getLast?_append, Option.or_of_isSome hsome]
    exact (Lexeme.isNameChar_of_not_isWord (l := .mark s) hs rfl).2

theorem stretch_keyword {w : String} {r : Unit × Cursor} (hw : w ∈ keywords)
    (h : keyword w c = .ok r) : c.Stretch [.keyword w] r.2 := by
  obtain ⟨hpre, hprev, -, heq⟩ := keyword_eq_ok_iff.mp h
  have hend := c.skipGap.behind_prev.advance hpre
  rw [heq] at hend
  refine Cursor.stretch_lexeme (l := .keyword w) hw trivial c.skipGap.behind_prev hend fun _ => ?_
  rw [← c.skipGap.behind_prev.prev_eq]
  exact hprev

/-- At a free place, a word that is no keyword is a name. -/
theorem stretch_word {reason : String} {first : Char → Bool} {r : String × Cursor} {l : Lexeme}
    (hfirst : ∀ c, first c = true → Text.isNameChar c = true) (hc : c.IsFree)
    (h : (do notKeyword; word reason first) c = .ok r) (hchars : l.chars = r.1.toList)
    (hlegal : IsWord first r.1 → l.Legal) (hshort : l.Short) : c.Stretch [l] r.2 := by
  have hfront : c.skipGap.prev.toList.getLast?.any Text.isNameChar = false := by
    rw [← c.skipGap.behind_prev.prev_eq]
    exact hc.skipGap
  obtain ⟨hhead, hall, -, hend, -, hkeyword⟩ := exists_of_word hfirst c.skipGap.behind_prev h
  have hword : IsWord first r.1 := by
    refine ⟨hhead, hall, fun hmem => ?_⟩
    rw [hkeyword hmem] at hfront
    cases hfront
  rw [← hchars] at hend
  exact Cursor.stretch_lexeme (hlegal hword) hshort c.skipGap.behind_prev hend fun _ => hfront

theorem stretch_name {r : String × Cursor} (hc : c.IsFree) (h : name c = .ok r) :
    c.Stretch [.name r.1] r.2 :=
  stretch_word (fun _ => Text.isNameChar_of_isNameStart) hc h rfl id trivial

theorem stretch_typeName {r : String × Cursor} (hc : c.IsFree) (h : typeName c = .ok r) :
    c.Stretch [.typeName r.1] r.2 :=
  stretch_word (fun _ => Text.isNameChar_of_isUpper) hc h rfl id trivial

/-- At the end of the text no lexeme is left. -/
theorem spells_of_endOfText {r : Unit × Cursor} (h : endOfText c = .ok r) : c.Spells [] := by
  obtain ⟨hnil, -⟩ := endOfText_eq_ok_iff.mp h
  apply Cursor.spells_of_skipGap
  refine ⟨?_, List.forall_mem_nil _⟩
  rw [hnil]
  exact .nil (List.forall_mem_nil _)

end Lexemes

/-! ## Parts -/

section Parts

variable {α : Type} {p : Parser α} {D : List Lexeme → α → Prop}

/-- What stands between two marks, wherever the first one stands. -/
theorem stretch_between {opening closing : String} (ho : opening ∈ marks) (hc : closing ∈ marks)
    (hp : Yields p D) {c : Cursor} {r : α × Cursor} (h : between opening closing p c = .ok r) :
    ∃ ls, D ls r.1 ∧ c.Stretch (.mark opening :: (ls ++ [.mark closing])) r.2 := by
  obtain ⟨_, c₁, hopening, h⟩ := bind_eq_ok_iff.mp h
  obtain ⟨a, c₂, ha, h⟩ := bind_eq_ok_iff.mp h
  obtain ⟨_, c₃, hclosing, h⟩ := bind_eq_ok_iff.mp h
  obtain rfl := Except.ok.inj h
  obtain ⟨hstart, hfree⟩ := stretch_mark ho hopening
  obtain ⟨ls, hD, hls⟩ := hp c₁ _ hfree ha
  obtain ⟨hend, -⟩ := stretch_mark hc hclosing
  exact ⟨ls, hD, hstart.trans (hls.trans hend)⟩

/-- Several parts with marks between them, joined from the right. -/
theorem yields_sepBy {s : String} {E : List Lexeme → α × List α → Prop} (hs : s ∈ marks)
    (hp : Yields p D) (hone : ∀ ls a, D ls a → E ls (a, []))
    (hcons : ∀ ls a ls' b bs, D ls a → E ls' (b, bs) → E (ls ++ .mark s :: ls') (a, b :: bs)) :
    Yields (Parser.sepBy p (mark s)) E := by
  have chain {c c₁ c₂ : Cursor} {a : α} {as : List α} (hc : c.IsFree) (ha : p c = .ok (a, c₁))
      (has : Parser.Repeats (do mark s; p) c₁ as c₂) :
      ∃ ls, E ls (a, as) ∧ c.Stretch ls c₂ := by
    induction has generalizing c a with
    | nil c₁ =>
      obtain ⟨ls, hD, hls⟩ := hp c _ hc ha
      exact ⟨ls, hone ls a hD, hls⟩
    | @cons c₁ c₁' c₂ b bs hb _ ih =>
      obtain ⟨ls, hD, hls⟩ := hp c _ hc ha
      obtain ⟨_, d, hd, hb⟩ := bind_eq_ok_iff.mp hb
      obtain ⟨hmark, hfree⟩ := stretch_mark hs hd
      obtain ⟨ls', hE, hls'⟩ := ih hfree hb
      exact ⟨ls ++ .mark s :: ls', hcons ls a ls' b bs hD hE, hls.trans (hmark.trans hls')⟩
  intro c r hc hr
  obtain ⟨a, c₁, ha, hr⟩ := bind_eq_ok_iff.mp hr
  obtain ⟨as, c₂, has, hr⟩ := bind_eq_ok_iff.mp hr
  obtain rfl := Except.ok.inj hr
  exact chain hc ha (Parser.repeats_of_many has)

theorem yields_field {sep : String} (hsep : sep ∈ marks) (hp : Yields p D) :
    Yields (field sep p) fun ls f => ∃ ls', ls = .name f.1 :: .mark sep :: ls' ∧ D ls' f.2 := by
  intro c r hc hr
  obtain ⟨label, c₁, hlabel, hr⟩ := bind_eq_ok_iff.mp hr
  obtain ⟨_, c₂, hmark, hr⟩ := bind_eq_ok_iff.mp hr
  obtain ⟨a, c₃, ha, hr⟩ := bind_eq_ok_iff.mp hr
  obtain rfl := Except.ok.inj hr
  obtain ⟨hcolon, hfree⟩ := stretch_mark hsep hmark
  obtain ⟨ls, hD, hls⟩ := hp c₂ _ hfree ha
  exact ⟨_, ⟨ls, rfl, hD⟩, (stretch_name hc hlabel).trans (hcolon.trans hls)⟩

end Parts

/-! ## Types -/

variable {type : Parser Ty}

/-- Fields, if there are any. -/
theorem yields_fields (h : Yields type (DerivesType .type)) :
    Yields (fields ":" type) fun ls fs =>
      ls = [] ∧ fs = [] ∨ DerivesType .fields ls (.record fs) := by
  have hsome : Yields (Parser.sepBy (field ":" type) (mark ",")) fun ls r =>
      DerivesType .fields ls (.record (r.1 :: r.2)) := by
    refine yields_sepBy (by decide) (yields_field (by decide) h) ?_ ?_
    · rintro ls f ⟨ls', rfl, hf⟩
      exact .field f.1 hf
    · rintro ls f ls' g gs ⟨ls₁, rfl, hf⟩ hgs
      exact .fieldCons f.1 hf hgs
  intro c r hc hr
  rw [fields_eq] at hr
  rcases Parser.optional_cases hr with hr | ⟨-, rfl⟩
  · obtain ⟨fs, c', hfs, hr⟩ := bind_eq_ok_iff.mp hr
    obtain rfl := Except.ok.inj hr
    obtain ⟨ls, hD, hls⟩ := hsome c _ hc hfs
    exact ⟨ls, .inr hD, hls⟩
  · exact ⟨[], .inl ⟨rfl, rfl⟩, .refl c⟩

theorem yields_atomicType (h : Yields type (DerivesType .type)) :
    Yields (atomicType type) (DerivesType .atomic) := by
  have constant {w : String} {T : Ty} (hw : w ∈ keywords)
      (hT : DerivesType .atomic [.keyword w] T) :
      Yields (do keyword w; pure T) (DerivesType .atomic) := by
    intro c r _ hr
    obtain ⟨_, c', hc', hr⟩ := bind_eq_ok_iff.mp hr
    obtain rfl := Except.ok.inj hr
    exact ⟨_, hT, stretch_keyword hw hc'⟩
  have hlist : Yields (do keyword "List"; Ty.list <$> between "[" "]" type)
      (DerivesType .atomic) := by
    rintro c ⟨_, c₂⟩ _ hr
    obtain ⟨_, c₁, hc₁, hr⟩ := bind_eq_ok_iff.mp hr
    obtain ⟨A, hA, rfl⟩ := map_eq_ok_iff.mp hr
    obtain ⟨ls, hD, hls⟩ := stretch_between (by decide) (by decide) h hA
    exact ⟨_, .list hD, (stretch_keyword (by decide) hc₁).trans hls⟩
  have hrecord : Yields (Ty.record <$> between "\x7b" "\x7d" (fields ":" type))
      (DerivesType .atomic) := by
    rintro c ⟨_, c'⟩ _ hr
    obtain ⟨fs, hfs, rfl⟩ := map_eq_ok_iff.mp hr
    obtain ⟨ls, hD, hls⟩ := stretch_between (by decide) (by decide) (yields_fields h) hfs
    rcases hD with ⟨rfl, rfl⟩ | hD
    · exact ⟨_, .emptyRecord, hls⟩
    · exact ⟨_, .record hD, hls⟩
  have hnamed : Yields (Ty.named <$> typeName) (DerivesType .atomic) := by
    rintro c ⟨_, c'⟩ hc hr
    obtain ⟨X, hX, rfl⟩ := map_eq_ok_iff.mp hr
    exact ⟨_, .named X, stretch_typeName hc hX⟩
  have hparen : Yields (between "(" ")" type) (DerivesType .atomic) := by
    intro c r _ hr
    obtain ⟨ls, hD, hls⟩ := stretch_between (by decide) (by decide) h hr
    exact ⟨_, .paren hD, hls⟩
  apply Yields.choice
  simp only [List.forall_mem_cons]
  exact ⟨constant (by decide) .bool, constant (by decide) .nat, constant (by decide) .string,
    hlist, hrecord, hnamed, hparen, List.forall_mem_nil _⟩

theorem yields_productType (h : Yields type (DerivesType .type)) :
    Yields (productType type) (DerivesType .product) := by
  have hchain : Yields (Parser.sepBy (atomicType type) (mark "*")) fun ls r =>
      DerivesType .product ls (chainRight .prod r.1 r.2) :=
    yields_sepBy (by decide) (yields_atomicType h) (fun _ _ => .ofAtomic) fun _ _ _ _ _ => .prod
  exact hchain.map fun _ _ hD => hD

theorem yields_typeRule (h : Yields type (DerivesType .type)) :
    Yields (typeRule type) (DerivesType .type) := by
  have hchain : Yields (Parser.sepBy (productType type) (mark "->")) fun ls r =>
      DerivesType .type ls (chainRight .arrow r.1 r.2) :=
    yields_sepBy (by decide) (yields_productType h) (fun _ _ => .ofProduct) fun _ _ _ _ _ => .arrow
  exact hchain.map fun _ _ hD => hD

/-- What is read as a type from a free place is derived from the lexemes that stand there. -/
theorem yields_type : Yields Grammar.type (DerivesType .type) :=
  Yields.fix fun _ => yields_typeRule

/-- What fills a text as a type is derived from the lexemes that the text spells. -/
theorem exists_spells_of_whole_type {c : Cursor} {r : Ty × Cursor} (hc : c.IsFree)
    (h : whole Grammar.type c = .ok r) : ∃ ls, DerivesType .type ls r.1 ∧ c.Spells ls := by
  obtain ⟨c', hT, hend⟩ := whole_eq_ok_iff.mp h
  obtain ⟨ls, hD, hls⟩ := yields_type c _ hc hT
  refine ⟨ls, hD, ?_⟩
  rw [← List.append_nil ls]
  exact hls [] (spells_of_endOfText hend)

end Grammar

end TypedLambda
