import TypedLambda.Proofs.Grammar.Layout
import TypedLambda.Proofs.Grammar.Lexeme
import TypedLambda.Proofs.Parser.Repetition

/-!
# Lexemes ahead

A cursor spells a sequence of lexemes when the text behind it lays them out, and none of them is a
number that is too long. Which lexeme comes first decides which of the lexeme parsers succeed: the
one for this lexeme does and leaves the others, and all that are for other lexemes fail. For words
this needs the gaps between words, for a word is read as far as it goes.

## Main definitions

* `Cursor.Spells`: the lexemes ahead
* `Parser.Reads`: what a parser reads at a cursor, and what it leaves

## Main results

* `Cursor.Spells.takeWhile_isNameChar`: the word ahead is the first lexeme, if that is a word
* `Grammar.reads_keyword`, `Grammar.fails_keyword`, and so on: the lexeme parsers
-/

namespace TypedLambda

/-! ## The next character -/

theorem Cursor.skipGap_eq {c : Cursor} {gap rest : List Char}
    (hgap : ∀ x ∈ gap, Text.isGap x = true) (hrest : rest.head?.any Text.isGap = false)
    (hc : c.rest = gap ++ rest) :
    c.skipGap = ⟨c.pos + gap.length, gap.getLast?.or c.prev, rest⟩ := by
  obtain ⟨pos, prev, cs⟩ := c
  obtain rfl : cs = gap ++ rest := hc
  obtain ⟨htake, -⟩ := Grammar.takeWhile_append_of_next hgap hrest
  rw [skipGap, skip, htake, advance_append]

namespace Grammar

variable {c : Cursor} {l : Lexeme}

theorem head?_eq_of_isPrefix {xs ys : List Char} (hne : xs ≠ []) (h : xs <+: ys) :
    ys.head? = xs.head? := by
  obtain ⟨zs, rfl⟩ := h
  rw [List.head?_append, Option.or_of_isSome (List.isSome_head?.mpr hne)]

theorem fails_mark_of_next {s : String} (hs : s.toList ≠ [])
    (h : c.skipGap.rest.head? ≠ s.toList.head?) : Parser.Fails (mark s) c := by
  refine (numberless_mark s).fails fun r hr => ?_
  obtain ⟨hpre, -⟩ := mark_eq_ok_iff.mp hr
  exact h (head?_eq_of_isPrefix hs hpre)

theorem fails_word_of_next {reason : String} {first : Char → Bool}
    (h : c.skipGap.rest.head?.any first = false) :
    Parser.Fails (do notKeyword; word reason first) c := by
  refine (numberless_notKeyword.bind fun _ => numberless_word _ _).fails fun r hr => ?_
  obtain ⟨_, c', hnot, hword⟩ := Parser.bind_eq_ok_iff.mp hr
  obtain ⟨-, rfl⟩ := notKeyword_eq_ok_iff.mp hnot
  obtain ⟨a, rest, hrest, ha, -⟩ := word_eq_ok_iff.mp hword
  rw [hrest, List.head?_cons, Option.any_some, ha] at h
  cases h

theorem fails_number_of_next [DigitLimit] (h : c.skipGap.rest.head?.any Char.isDigit = false) :
    Parser.Fails number c := by
  have hnil := takeWhile_eq_nil_of_next h
  rcases hc : number c with (e | e) | r
  · exact ⟨e, hc⟩
  · obtain ⟨hne, -⟩ := number_eq_overlong_iff.mp hc
    exact absurd hnil hne
  · obtain ⟨digits, hne, htake, -⟩ := number_eq_ok_iff.mp hc
    exact absurd (htake.symm.trans hnil) hne

theorem fails_stringLiteral_of_next (h : c.skipGap.rest.head? ≠ some '"') :
    Parser.Fails stringLiteral c := by
  refine numberless_stringLiteral.fails fun r hr => ?_
  obtain ⟨content, rest, hrest, -⟩ := stringLiteral_eq_ok_iff.mp hr
  rw [hrest] at h
  exact h rfl

/-- A legal lexeme that starts like a mark is this mark. -/
theorem eq_mark_of_head? {s : String} (hl : l.Legal) (hs : s ∈ marks)
    (h : l.chars.head? = s.toList.head?) : l = .mark s := by
  have hmarks : ∀ s ∈ marks, s.toList.head?.any Text.isNameChar = false ∧
      s.toList.head? ≠ some '"' ∧ ∀ r ∈ marks, r.toList.head? = s.toList.head? → r = s := by
    decide
  obtain ⟨hname, hquote, hinj⟩ := hmarks s hs
  cases hw : l.isWord with
  | true =>
    cases hchars : l.chars with
    | nil => exact absurd hchars (Lexeme.chars_ne_nil hl)
    | cons x xs =>
      have hx := Lexeme.isNameChar_of_isWord hl hw x (hchars ▸ List.mem_cons_self)
      rw [← h, hchars, List.head?_cons, Option.any_some, hx] at hname
      cases hname
  | false =>
    cases l with
    | mark r => rw [hinj r hl h]
    | literal content => exact absurd h.symm hquote
    | _ => cases hw

/-- A keyword is read only where it is the word ahead. -/
theorem takeWhile_of_keyword {w : String} {r : Unit × Cursor} (hw : w ∈ keywords)
    (h : keyword w c = .ok r) : c.skipGap.rest.takeWhile Text.isNameChar = w.toList := by
  obtain ⟨⟨cs, hcs⟩, -, hnext, hr⟩ := keyword_eq_ok_iff.mp h
  rw [← hr, Cursor.rest_advance, ← hcs, List.drop_left] at hnext
  have hchars := Lexeme.isNameChar_of_isWord (l := .keyword w) hw rfl
  rw [← hcs]
  exact (takeWhile_append_of_next hchars hnext).1

theorem unescape_of_no_backslash {cs : List Char} (h : ∀ x ∈ cs, x ≠ '\\') :
    Text.unescape cs = cs := by
  induction cs with
  | nil => rw [Text.unescape]
  | cons x cs ih =>
    obtain ⟨hx, hcs⟩ := List.forall_mem_cons.mp h
    rw [Text.unescape.eq_def]
    dsimp only
    rw [if_neg hx, ih hcs]

end Grammar

/-! ## The lexemes ahead -/

variable [DigitLimit]

/-- The text behind the cursor lays out the lexemes, and they are short. -/
structure Cursor.Spells (c : Cursor) (ls : List Lexeme) : Prop where
  /-- The text lays them out. -/
  layout : Layout c.prev ls c.rest
  /-- They are short. -/
  short : ∀ l ∈ ls, l.Short

namespace Parser

variable {α : Type}

/-- At the cursor, the parser reads `a` and leaves the lexemes `ls`. -/
def Reads (p : Parser α) (c : Cursor) (a : α) (ls : List Lexeme) : Prop :=
  ∃ c', p c = .ok (a, c') ∧ c'.Spells ls

end Parser

/-! ## Behind the gap -/

namespace Cursor.Spells

variable {c : Cursor} {l : Lexeme} {ls : List Lexeme}

/-- Behind the gap stands the first lexeme. -/
theorem exists_eq_append (h : c.Spells (l :: ls)) :
    ∃ cs, c.skipGap.rest = l.chars ++ cs ∧ l.Legal ∧
      (l.isWord = true → c.skipGap.prev.any Text.isNameChar = false) ∧
      Layout l.chars.getLast? ls cs := by
  have h := h.layout
  generalize hrest : c.rest = rest at h
  cases h with
  | @cons _ gap hgap _ hl hsep _ cs h =>
    have hnext : (l.chars ++ cs).head?.any Text.isGap = false :=
      Text.not_any_of_not_any (fun _ => Text.isBlank_of_isGap) (Lexeme.isBlank_head_append hl cs)
    rw [skipGap_eq hgap hnext hrest]
    refine ⟨cs, rfl, hl, fun hw => ?_, h⟩
    cases hlast : gap.getLast? with
    | none => exact hsep hw (List.getLast?_eq_none_iff.mp hlast)
    | some x =>
      rw [Option.some_or, Option.any_some, ← Bool.not_eq_true]
      intro hx
      have hgapx := hgap x (List.mem_of_getLast? hlast)
      rw [Text.isGap_of_isNameChar hx] at hgapx
      cases hgapx

theorem legal (h : c.Spells (l :: ls)) : l.Legal := by
  obtain ⟨-, -, hl, -⟩ := h.exists_eq_append
  exact hl

/-- When no lexeme is left, the gap reaches to the end of the text. -/
theorem skipGap_nil (h : c.Spells []) : c.skipGap.rest = [] := by
  have h := h.layout
  generalize hrest : c.rest = rest at h
  cases h with
  | nil hgap =>
    rw [← List.append_nil rest] at hrest
    rw [skipGap_eq hgap rfl hrest]

/-- The lexemes behind the first one. -/
theorem advance (h : c.Spells (l :: ls)) : (c.skipGap.advance l.chars.length).Spells ls := by
  obtain ⟨cs, hrest, hl, -, hls⟩ := h.exists_eq_append
  refine ⟨?_, (List.forall_mem_cons.mp h.short).2⟩
  have hc : c.skipGap = ⟨c.skipGap.pos, c.skipGap.prev, l.chars ++ cs⟩ := by rw [← hrest]
  have hlast : l.chars.getLast?.isSome := List.getLast?_isSome.mpr (Lexeme.chars_ne_nil hl)
  rw [hc, advance_append, Option.or_of_isSome hlast]
  exact hls

theorem skipGap (h : c.Spells ls) : c.skipGap.Spells ls := by
  refine ⟨?_, h.short⟩
  cases ls with
  | nil =>
    rw [h.skipGap_nil]
    exact .nil (List.forall_mem_nil _)
  | cons l ls =>
    obtain ⟨cs, hrest, hl, hprev, h⟩ := h.exists_eq_append
    rw [hrest]
    exact .lexeme hl hprev h

/-- The word ahead is the first lexeme, if that is a word. -/
theorem takeWhile_isNameChar (h : c.Spells (l :: ls)) :
    c.skipGap.rest.takeWhile Text.isNameChar = if l.isWord then l.chars else [] := by
  obtain ⟨cs, hrest, hl, -, h⟩ := h.exists_eq_append
  rw [hrest]
  cases hw : l.isWord with
  | true =>
    have hnext := h.nextAfterWord (Lexeme.isNameChar_getLast_of_isWord hl hw)
    exact (Grammar.takeWhile_append_of_next (Lexeme.isNameChar_of_isWord hl hw) hnext).1
  | false =>
    have hhead : (l.chars ++ cs).head?.any Text.isNameChar = false := by
      rw [List.head?_append, Option.or_of_isSome (List.isSome_head?.mpr (Lexeme.chars_ne_nil hl))]
      exact (Lexeme.isNameChar_of_not_isWord hl hw).1
    exact Grammar.takeWhile_eq_nil_of_next hhead

/-- The first character behind the gap is that of the first lexeme. -/
theorem head?_skipGap (h : c.Spells (l :: ls)) : c.skipGap.rest.head? = l.chars.head? := by
  obtain ⟨cs, hrest, hl, -⟩ := h.exists_eq_append
  rw [hrest, List.head?_append,
    Option.or_of_isSome (List.isSome_head?.mpr (Lexeme.chars_ne_nil hl))]

/-- What no first lexeme starts with does not come behind the gap. -/
theorem not_any_head?_skipGap {P : Char → Bool} (h : c.Spells ls)
    (hP : ∀ l ∈ ls.head?, l.chars.head?.any P = false) : c.skipGap.rest.head?.any P = false := by
  cases ls with
  | nil =>
    rw [h.skipGap_nil]
    rfl
  | cons l ls =>
    rw [h.head?_skipGap]
    exact hP l rfl

theorem head?_skipGap_ne {x : Char} (h : c.Spells ls)
    (hne : ∀ l ∈ ls.head?, l.chars.head? ≠ some x) : c.skipGap.rest.head? ≠ some x := by
  cases ls with
  | nil =>
    rw [h.skipGap_nil]
    exact nofun
  | cons l ls =>
    rw [h.head?_skipGap]
    exact hne l rfl

end Cursor.Spells

namespace Grammar

variable {c : Cursor} {l : Lexeme} {ls : List Lexeme}

/-! ## Marks -/

/-- A mark is read where the first lexeme is written like it. -/
theorem reads_mark_of_chars {s : String} (h : c.Spells (l :: ls)) (hl : l.chars = s.toList) :
    Parser.Reads (mark s) c () ls := by
  obtain ⟨cs, hrest, -⟩ := h.exists_eq_append
  refine ⟨_, mark_eq_ok_iff.mpr ⟨?_, rfl⟩, hl ▸ h.advance⟩
  rw [hrest, hl]
  exact List.prefix_append _ _

theorem reads_mark {s : String} (h : c.Spells (.mark s :: ls)) : Parser.Reads (mark s) c () ls :=
  reads_mark_of_chars h rfl

theorem fails_mark_of_head? {s : String} (hs : s.toList ≠ []) (h : c.Spells ls)
    (hne : ∀ l ∈ ls.head?, l.chars.head? ≠ s.toList.head?) : Parser.Fails (mark s) c := by
  obtain ⟨x, xs, hx⟩ := List.exists_cons_of_ne_nil hs
  rw [hx, List.head?_cons] at hne
  apply fails_mark_of_next hs
  rw [hx, List.head?_cons]
  exact h.head?_skipGap_ne hne

theorem fails_mark {s : String} (hs : s ∈ marks) (h : c.Spells ls)
    (hne : ls.head? ≠ some (.mark s)) : Parser.Fails (mark s) c := by
  have hnil : ∀ s ∈ marks, s.toList ≠ [] := by decide
  refine fails_mark_of_head? (hnil s hs) h fun l hl hhead => hne ?_
  obtain ⟨ls', rfl⟩ := List.head?_eq_some_iff.mp hl
  rw [List.head?_cons, eq_mark_of_head? h.legal hs hhead]

/-! ## Keywords -/

theorem reads_keyword {w : String} (h : c.Spells (.keyword w :: ls)) :
    Parser.Reads (keyword w) c () ls := by
  obtain ⟨cs, hrest, hl, hprev, hls⟩ := h.exists_eq_append
  refine ⟨_, keyword_eq_ok_iff.mpr ⟨?_, hprev rfl, ?_, rfl⟩, h.advance⟩
  · rw [hrest]
    exact List.prefix_append _ _
  · rw [Cursor.rest_advance, hrest, Lexeme.chars, List.drop_left]
    exact hls.nextAfterWord (Lexeme.isNameChar_getLast_of_isWord hl rfl)

theorem fails_keyword {w : String} (hw : w ∈ keywords) (h : c.Spells ls)
    (hne : ls.head? ≠ some (.keyword w)) : Parser.Fails (keyword w) c := by
  refine (numberless_keyword w).fails fun r hr => ?_
  have hword := takeWhile_of_keyword hw hr
  have hstart : ∀ w ∈ keywords, w.toList.head?.any Text.isWordStart = true := by decide
  have hnil : w.toList ≠ [] := fun hnil => by
    have hw' := hstart w hw
    rw [hnil] at hw'
    cases hw'
  cases ls with
  | nil =>
    rw [h.skipGap_nil] at hword
    exact hnil hword.symm
  | cons l ls =>
    rw [h.takeWhile_isNameChar] at hword
    cases hl : l.isWord with
    | false =>
      rw [hl] at hword
      exact hnil hword.symm
    | true =>
      rw [if_pos hl] at hword
      obtain ⟨v, rfl⟩ | ⟨x, rfl⟩ | ⟨X, rfl⟩ :=
        Lexeme.eq_of_isWordStart h.legal (by rw [hword]; exact hstart w hw)
      · obtain rfl : v = w := String.toList_injective hword
        exact hne rfl
      · obtain rfl : x = w := String.toList_injective hword
        exact h.legal.2.2 hw
      · obtain rfl : X = w := String.toList_injective hword
        exact h.legal.2.2 hw

/-- The grammar sees a keyword exactly where one comes first. -/
theorem atKeyword_eq (h : c.Spells (l :: ls)) (hl : ∀ w, l ≠ .keyword w) :
    atKeyword c = false := by
  rw [← Bool.not_eq_true, atKeyword_eq_true_iff]
  rintro ⟨w, hw, r, hr⟩
  refine (fails_keyword hw h fun heq => hl w ?_).ne_ok r hr
  exact Option.some.inj heq

theorem atKeyword_of_keyword {w : String} (h : c.Spells (.keyword w :: ls)) :
    atKeyword c = true := by
  obtain ⟨c', hc', -⟩ := reads_keyword h
  exact atKeyword_eq_true_iff.mpr ⟨w, h.legal, _, hc'⟩

/-! ## Names -/

/-- At a word, a parser for words with such a beginning reads all of it. -/
theorem reads_word (reason : String) {first : Char → Bool} {x : String} (h : c.Spells (l :: ls))
    (hl : l.isWord = true) (hx : l.chars = x.toList) (hfirst : x.toList.head?.any first = true) :
    Parser.Reads (word reason first) c x ls := by
  obtain ⟨cs, hrest, hlegal, -, -⟩ := h.exists_eq_append
  have hword := h.takeWhile_isNameChar
  rw [if_pos hl, hrest] at hword
  rw [hx] at hrest hword
  cases hchars : x.toList with
  | nil =>
    rw [hchars] at hfirst
    cases hfirst
  | cons a as =>
    rw [hchars] at hrest hword hfirst
    have ha : Text.isNameChar a = true :=
      Lexeme.isNameChar_of_isWord hlegal hl a (by rw [hx, hchars]; exact List.mem_cons_self)
    rw [List.cons_append, List.takeWhile_cons_of_pos ha] at hword
    obtain htail : (as ++ cs).takeWhile Text.isNameChar = as := (List.cons.inj hword).2
    refine ⟨_, word_eq_ok_iff.mpr ⟨a, as ++ cs, hrest, hfirst, ?_, ?_⟩, h.advance⟩
    · rw [htail, ← hchars, String.ofList_toList]
    · rw [htail, hx, hchars, List.length_cons]

/-- The same for a name, which is no keyword. -/
theorem reads_word_of_ne_keyword (reason : String) {first : Char → Bool} {x : String}
    (h : c.Spells (l :: ls)) (hne : ∀ w, l ≠ .keyword w) (hl : l.isWord = true)
    (hx : l.chars = x.toList) (hfirst : x.toList.head?.any first = true) :
    Parser.Reads (do notKeyword; word reason first) c x ls := by
  obtain ⟨c', hc', hls⟩ := reads_word reason h hl hx hfirst
  have hnot : notKeyword c = .ok ((), c) := notKeyword_eq_ok_iff.mpr ⟨atKeyword_eq h hne, rfl⟩
  exact ⟨c', Parser.bind_eq_ok_iff.mpr ⟨(), c, hnot, hc'⟩, hls⟩

theorem reads_name {x : String} (h : c.Spells (.name x :: ls)) : Parser.Reads name c x ls :=
  reads_word_of_ne_keyword _ h (fun _ hw => nomatch hw) rfl rfl h.legal.1

theorem reads_typeName {X : String} (h : c.Spells (.typeName X :: ls)) :
    Parser.Reads typeName c X ls :=
  reads_word_of_ne_keyword _ h (fun _ hw => nomatch hw) rfl rfl h.legal.1

/-- Where a word that is no keyword is read, a name comes first. -/
theorem eq_name_of_word {reason : String} {first : Char → Bool} {r : String × Cursor}
    (h : c.Spells ls) (hstart : ∀ x, first x = true → Text.isWordStart x = true)
    (hr : (do notKeyword; word reason first) c = .ok r) :
    ∃ a l ls', ls = l :: ls' ∧ l.chars.head? = some a ∧ first a = true ∧
      ((∃ x, l = .name x) ∨ ∃ X, l = .typeName X) := by
  obtain ⟨_, c', hnot, hword⟩ := Parser.bind_eq_ok_iff.mp hr
  obtain ⟨hkeyword, rfl⟩ := notKeyword_eq_ok_iff.mp hnot
  obtain ⟨a, rest, hrest, ha, -⟩ := word_eq_ok_iff.mp hword
  cases ls with
  | nil =>
    rw [h.skipGap_nil] at hrest
    cases hrest
  | cons l ls =>
    have hhead : l.chars.head? = some a := by rw [← h.head?_skipGap, hrest, List.head?_cons]
    have hword : l.chars.head?.any Text.isWordStart = true := by
      rw [hhead]
      exact hstart a ha
    refine ⟨a, l, ls, rfl, hhead, ha, ?_⟩
    obtain ⟨w, rfl⟩ | hname := Lexeme.eq_of_isWordStart h.legal hword
    · have hat : atKeyword c = true := atKeyword_of_keyword h
      exact Bool.noConfusion (hat.symm.trans hkeyword)
    · exact hname

theorem fails_name (h : c.Spells ls) (hne : ∀ x, ls.head? ≠ some (.name x)) :
    Parser.Fails name c := by
  refine numberless_name.fails fun r hr => ?_
  obtain ⟨a, l, ls', rfl, hhead, ha, ⟨x, rfl⟩ | ⟨X, rfl⟩⟩ :=
    eq_name_of_word h (fun _ => Text.isWordStart_of_isNameStart) hr
  · exact hne x rfl
  · have hupper := h.legal.1
    rw [show X.toList.head? = some a from hhead, Option.any_some,
      Text.isUpper_of_isNameStart ha] at hupper
    cases hupper

theorem fails_typeName (h : c.Spells ls) (hne : ∀ X, ls.head? ≠ some (.typeName X)) :
    Parser.Fails typeName c := by
  refine numberless_typeName.fails fun r hr => ?_
  obtain ⟨a, l, ls', rfl, hhead, ha, ⟨x, rfl⟩ | ⟨X, rfl⟩⟩ :=
    eq_name_of_word h (fun _ => Text.isWordStart_of_isUpper) hr
  · have hstart := h.legal.1
    rw [show x.toList.head? = some a from hhead, Option.any_some] at hstart
    rw [Text.isUpper_of_isNameStart hstart] at ha
    cases ha
  · exact hne X rfl

/-! ## Constants -/

theorem reads_number {digits : List Char} (h : c.Spells (.number digits :: ls)) :
    Parser.Reads number c (valueOfDigits digits) ls := by
  obtain ⟨cs, hrest, hl, -, hls⟩ := h.exists_eq_append
  have hnext := hls.nextAfterWord (Lexeme.isNameChar_getLast_of_isWord hl rfl)
  have hdigit : cs.head?.any Char.isDigit = false :=
    Text.not_any_of_not_any (fun _ => Text.isNameChar_of_isDigit) hnext
  have hshort := h.short _ List.mem_cons_self
  refine ⟨_, number_eq_ok_iff.mpr ⟨digits, hl.1, ?_, hshort, rfl, rfl⟩, h.advance⟩
  rw [hrest]
  exact (takeWhile_append_of_next hl.2 hdigit).1

theorem fails_number (h : c.Spells ls)
    (hne : ∀ l ∈ ls.head?, l.chars.head?.any Char.isDigit = false) : Parser.Fails number c :=
  fails_number_of_next (h.not_any_head?_skipGap hne)

theorem reads_stringLiteral {content : List Char} (h : c.Spells (.literal content :: ls)) :
    Parser.Reads stringLiteral c (String.ofList content) ls := by
  obtain ⟨cs, hrest, hl, -⟩ := h.exists_eq_append
  refine ⟨_, stringLiteral_eq_ok_iff.mpr ⟨content, cs, ?_, fun x hx => (hl x hx).1, ?_, ?_⟩,
    h.advance⟩
  · rw [hrest, Lexeme.chars, List.cons_append, List.append_assoc, List.singleton_append]
  · rw [unescape_of_no_backslash fun x hx => (hl x hx).2.1]
  · rw [Lexeme.chars, List.length_cons, List.length_append, List.length_singleton]

theorem fails_stringLiteral (h : c.Spells ls)
    (hne : ∀ l ∈ ls.head?, l.chars.head? ≠ some '"') : Parser.Fails stringLiteral c :=
  fails_stringLiteral_of_next (h.head?_skipGap_ne hne)

theorem reads_endOfText (h : c.Spells []) : Parser.Reads endOfText c () [] :=
  ⟨c.skipGap, endOfText_eq_ok_iff.mpr ⟨h.skipGap_nil, rfl⟩, h.skipGap⟩

end Grammar

end TypedLambda
