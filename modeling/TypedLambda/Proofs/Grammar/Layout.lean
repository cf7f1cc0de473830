import TypedLambda.Proofs.Text.Letter

/-!
# Lexemes and layouts

A text lays out a sequence of lexemes when it consists of them, in this order, with gaps in front of
each and behind the last. A gap may be empty, except between two lexemes that are words: these would
run together. Which character stands in front of the text matters for the same reason. A text may
lay out numbers of any length, but only short ones can be read.

## Main definitions

* `Lexeme`, `Lexeme.chars`: the lexemes of the grammar and how they are written
* `Lexeme.Legal`: the lexemes that can be read, numbers of any length among them
* `Lexeme.Short`: numbers that are not too long, and all other lexemes
* `Layout`: the texts that lay out a sequence of lexemes
* `LaysOut`, `LaysOutAnywhere`: texts that do so whatever stands in front of them, with short
  numbers

## Main results

* `Layout.append`: one layout behind another
* `Layout.nextAfterWord`: no word runs together with what stands behind it
-/

namespace TypedLambda

/-! ## Names -/

namespace Grammar

/-- The word starts with such a character, goes on with characters of names, and is no keyword. -/
def IsWord (first : Char → Bool) (x : String) : Prop :=
  x.toList.head?.any first = true ∧ x.toList.all Text.isNameChar = true ∧ x ∉ keywords

instance (first : Char → Bool) (x : String) : Decidable (IsWord first x) :=
  inferInstanceAs (Decidable (_ ∧ _ ∧ _))

/-- The names of variables and labels: words in lower case. -/
def IsName (x : String) : Prop :=
  IsWord isNameStart x

instance (x : String) : Decidable (IsName x) :=
  inferInstanceAs (Decidable (IsWord _ x))

/-- The names of types: words in upper case. -/
def IsTypeName (X : String) : Prop :=
  IsWord Char.isUpper X

instance (X : String) : Decidable (IsTypeName X) :=
  inferInstanceAs (Decidable (IsWord _ X))

/-- The marks of the grammar. -/
def marks : List String :=
  ["(", ")", "[", "]", "\x7b", "\x7d", ",", ":", ".", "=", "*", "->"]

end Grammar

/-! ## Lexemes -/

/-- A lexeme. -/
inductive Lexeme where
  /-- A fixed sequence of characters that is no word. -/
  | mark (s : String)
  /-- A word that is no name. -/
  | keyword (w : String)
  /-- The name of a variable or a label. -/
  | name (x : String)
  /-- The name of a type. -/
  | typeName (X : String)
  /-- A number with its digits. -/
  | number (digits : List Char)
  /-- The number of a component behind a point. -/
  | index (i : String)
  /-- A string with the characters between its quotes. -/
  | literal (content : List Char)
deriving Repr, DecidableEq

namespace Lexeme

/-- The lexeme as it is written. -/
def chars : Lexeme → List Char
  | mark s | keyword s | name s | typeName s | index s => s.toList
  | number digits => digits
  | literal content => '"' :: (content ++ ['"'])

/-- Whether the lexeme consists of characters of names. -/
def isWord : Lexeme → Bool
  | mark _ | literal _ => false
  | _ => true

/-- The lexemes that the grammar can read, and literals only without escapes and tabs. -/
def Legal : Lexeme → Prop
  | mark s => s ∈ Grammar.marks
  | keyword w => w ∈ Grammar.keywords
  | name x => Grammar.IsName x
  | typeName X => Grammar.IsTypeName X
  | number digits => digits ≠ [] ∧ ∀ d ∈ digits, d.isDigit = true
  | index i => i ∈ ["1", "2"]
  | literal content => ∀ c ∈ content, Grammar.isLiteralChar c = true ∧ c ≠ '\\' ∧ c ≠ '\t'

-- the characters of a text are gone through, and not all characters that there are
instance : DecidablePred Legal
  | mark s => inferInstanceAs (Decidable (s ∈ Grammar.marks))
  | keyword w => inferInstanceAs (Decidable (w ∈ Grammar.keywords))
  | name x => inferInstanceAs (Decidable (Grammar.IsName x))
  | typeName X => inferInstanceAs (Decidable (Grammar.IsTypeName X))
  | number digits =>
    have : Decidable (∀ d ∈ digits, d.isDigit = true) := List.decidableBAll _ digits
    inferInstanceAs (Decidable (digits ≠ [] ∧ ∀ d ∈ digits, d.isDigit = true))
  | index i => inferInstanceAs (Decidable (i ∈ ["1", "2"]))
  | literal content => List.decidableBAll _ content

/-- If the lexeme is a number, it is not too long. -/
@[simp] def Short [DigitLimit] : Lexeme → Prop
  | number digits => DigitLimit.admits digits.length = true
  | _ => True

instance [DigitLimit] : DecidablePred Short
  | number digits => inferInstanceAs (Decidable (DigitLimit.admits digits.length = true))
  | mark _ | keyword _ | name _ | typeName _ | index _ | literal _ => .isTrue trivial

variable {l : Lexeme}

/-- The number of a component is a number. -/
theorem isDigit_of_index {i : String} (h : (index i).Legal) :
    i.toList ≠ [] ∧ ∀ d ∈ i.toList, d.isDigit = true := by
  have hindices : ∀ i ∈ ["1", "2"], i.toList ≠ [] ∧ i.toList.all Char.isDigit = true := by decide
  obtain ⟨hne, hdigits⟩ := hindices i h
  exact ⟨hne, List.all_eq_true.mp hdigits⟩

theorem chars_ne_nil (h : l.Legal) : l.chars ≠ [] := by
  cases l with
  | mark s =>
    have hmarks : ∀ s ∈ Grammar.marks, s.toList ≠ [] := by decide
    exact hmarks s h
  | keyword w =>
    have hkeywords : ∀ w ∈ Grammar.keywords, w.toList ≠ [] := by decide
    exact hkeywords w h
  | name x | typeName x =>
    intro hnil
    have hfirst := h.1
    rw [show x.toList = [] from hnil] at hfirst
    cases hfirst
  | number digits => exact h.1
  | index i => exact (isDigit_of_index h).1
  | literal content => exact List.cons_ne_nil _ _

/-- A word consists of characters of names. -/
theorem isNameChar_of_isWord (h : l.Legal) (hw : l.isWord = true) :
    ∀ c ∈ l.chars, Text.isNameChar c = true := by
  cases l with
  | mark | literal => cases hw
  | keyword w =>
    have hkeywords : ∀ w ∈ Grammar.keywords, w.toList.all Text.isNameChar = true := by decide
    exact List.all_eq_true.mp (hkeywords w h)
  | name x | typeName x => exact List.all_eq_true.mp h.2.1
  | number digits => exact fun d hd => Text.isNameChar_of_isDigit (h.2 d hd)
  | index i => exact fun d hd => Text.isNameChar_of_isDigit ((isDigit_of_index h).2 d hd)

/-- The other lexemes neither start nor end with a character of names. -/
theorem isNameChar_of_not_isWord (h : l.Legal) (hw : l.isWord = false) :
    l.chars.head?.any Text.isNameChar = false ∧
      l.chars.getLast?.any Text.isNameChar = false := by
  cases l with
  | mark s =>
    have hmarks : ∀ s ∈ Grammar.marks, s.toList.head?.any Text.isNameChar = false ∧
        s.toList.getLast?.any Text.isNameChar = false := by decide
    exact hmarks s h
  | literal content =>
    have hquote : Text.isNameChar '"' = false := by decide
    refine ⟨hquote, ?_⟩
    rw [chars, ← List.cons_append, List.getLast?_append]
    exact hquote
  | _ => cases hw

/-- Only keywords and names start as words do. -/
theorem eq_of_isWordStart (h : l.Legal) (hl : l.chars.head?.any Text.isWordStart = true) :
    (∃ w, l = keyword w) ∨ (∃ x, l = name x) ∨ ∃ X, l = typeName X := by
  have hdigits {digits : List Char} (hd : ∀ d ∈ digits, d.isDigit = true) :
      digits.head?.any Text.isWordStart = false := by
    cases digits with
    | nil => rfl
    | cons d digits => exact Text.isWordStart_of_isDigit (hd d List.mem_cons_self)
  cases l with
  | keyword w => exact .inl ⟨w, rfl⟩
  | name x => exact .inr (.inl ⟨x, rfl⟩)
  | typeName X => exact .inr (.inr ⟨X, rfl⟩)
  | number digits =>
    rw [chars, hdigits h.2] at hl
    cases hl
  | index i =>
    rw [chars, hdigits (isDigit_of_index h).2] at hl
    cases hl
  | mark s =>
    have hmarks : ∀ s ∈ Grammar.marks, s.toList.head?.any Text.isWordStart = false := by decide
    rw [chars, hmarks s h] at hl
    cases hl
  | literal content => cases hl

/-- No lexeme starts with a blank. -/
theorem isBlank_head (h : l.Legal) : l.chars.head?.any Text.isBlank = false := by
  cases hw : l.isWord with
  | true =>
    cases hchars : l.chars with
    | nil => rfl
    | cons c cs =>
      have hc := isNameChar_of_isWord h hw c (hchars ▸ List.mem_cons_self)
      exact Text.isBlank_of_isNameChar hc
  | false =>
    cases l with
    | mark s =>
      have hmarks : ∀ s ∈ Grammar.marks, s.toList.head?.any Text.isBlank = false := by decide
      exact hmarks s h
    | literal content =>
      have hquote : Text.isBlank '"' = false := by decide
      exact hquote
    | _ => cases hw

theorem isBlank_head_append (h : l.Legal) (rest : List Char) :
    (l.chars ++ rest).head?.any Text.isBlank = false := by
  rw [List.head?_append, Option.or_of_isSome (List.isSome_head?.mpr (chars_ne_nil h))]
  exact isBlank_head h

/-- A word ends with a character of names. -/
theorem isNameChar_getLast_of_isWord (h : l.Legal) (hw : l.isWord = true) :
    l.chars.getLast?.any Text.isNameChar = true := by
  obtain ⟨c, hc⟩ := List.getLast?_isSome.mpr (chars_ne_nil h) |> Option.isSome_iff_exists.mp
  rw [hc, Option.any_some]
  exact isNameChar_of_isWord h hw c (List.mem_of_getLast? hc)

end Lexeme

/-! ## Layouts -/

/-- The text `cs` lays out the lexemes behind the character `prev`. -/
inductive Layout : (prev : Option Char) → List Lexeme → (cs : List Char) → Prop
  /-- Behind the last lexeme there is only a gap. -/
  | nil {prev : Option Char} {gap : List Char} (hgap : ∀ c ∈ gap, Text.isGap c = true) :
      Layout prev [] gap
  /-- A gap, a lexeme and the layout of the others. Without a gap, a word does not stand behind a
  character of names. -/
  | cons {prev : Option Char} {gap : List Char} (hgap : ∀ c ∈ gap, Text.isGap c = true)
      {l : Lexeme} (hl : l.Legal)
      (hsep : l.isWord = true → gap = [] → prev.any Text.isNameChar = false)
      {ls : List Lexeme} {cs : List Char} (h : Layout l.chars.getLast? ls cs) :
      Layout prev (l :: ls) (gap ++ (l.chars ++ cs))

namespace Layout

variable {prev : Option Char} {l : Lexeme} {ls ls' : List Lexeme} {cs cs' : List Char}

/-- The gap in front may be empty. -/
theorem lexeme (hl : l.Legal) (hsep : l.isWord = true → prev.any Text.isNameChar = false)
    (h : Layout l.chars.getLast? ls cs) : Layout prev (l :: ls) (l.chars ++ cs) :=
  .cons (List.forall_mem_nil _) hl (fun hw _ => hsep hw) h

/-- A word does not run together with what stands behind it. -/
theorem nextAfterWord (h : Layout prev ls cs) (hprev : prev.any Text.isNameChar = true) :
    cs.head?.any Text.isNameChar = false := by
  have hhead {gap : List Char} (hgap : ∀ c ∈ gap, Text.isGap c = true) {c : Char}
      (hc : gap.head? = some c) : Text.isNameChar c = false := by
    rw [← Bool.not_eq_true]
    intro hname
    have hnot := Text.isGap_of_isNameChar hname
    rw [hgap c (List.mem_of_mem_head? hc)] at hnot
    cases hnot
  cases h with
  | nil hgap =>
    cases hc : cs.head? with
    | none => rfl
    | some c => exact hhead hgap hc
  | @cons _ gap hgap l hl hsep ls cs h =>
    cases hc : gap.head? with
    | some c =>
      rw [List.head?_append, hc]
      exact hhead hgap hc
    | none =>
      obtain rfl := List.head?_eq_none_iff.mp hc
      rw [List.nil_append, List.head?_append,
        Option.or_of_isSome (List.isSome_head?.mpr (Lexeme.chars_ne_nil hl))]
      cases hw : l.isWord with
      | false => exact (Lexeme.isNameChar_of_not_isWord hl hw).1
      | true =>
        rw [hsep hw rfl] at hprev
        cases hprev

/-- A gap may be put in front. -/
theorem gap_append {gap : List Char} (hgap : ∀ c ∈ gap, Text.isGap c = true)
    (h : Layout (gap.getLast?.or prev) ls cs) : Layout prev ls (gap ++ cs) := by
  cases h with
  | nil hgap' => exact .nil (List.forall_mem_append.mpr ⟨hgap, hgap'⟩)
  | cons hgap' hl hsep h =>
    rw [← List.append_assoc]
    refine .cons (List.forall_mem_append.mpr ⟨hgap, hgap'⟩) hl (fun hw hnil => ?_) h
    obtain ⟨rfl, rfl⟩ := List.append_eq_nil_iff.mp hnil
    exact hsep hw rfl

/-- One layout behind another. -/
theorem append (h : Layout prev ls cs) (h' : Layout (cs.getLast?.or prev) ls' cs') :
    Layout prev (ls ++ ls') (cs ++ cs') := by
  induction h with
  | nil hgap => exact gap_append hgap h'
  | @cons prev gap hgap l hl hsep ls cs h ih =>
    rw [List.cons_append, List.append_assoc, List.append_assoc]
    refine .cons hgap hl hsep (ih ?_)
    have hlast : (l.chars.getLast?).isSome := List.getLast?_isSome.mpr (Lexeme.chars_ne_nil hl)
    rw [List.getLast?_append, List.getLast?_append, Option.or_assoc, Option.or_assoc,
      Option.or_of_isSome hlast] at h'
    exact h'

end Layout

/-! ## Layouts at other places -/

variable [DigitLimit]

/-- The text lays out the lexemes where it does not stand right behind a word, and they are
short. -/
def LaysOut (ls : List Lexeme) (cs : List Char) : Prop :=
  (∀ l ∈ ls, l.Short) ∧ ∀ prev : Option Char, prev.any Text.isNameChar = false → Layout prev ls cs

/-- The text lays out the lexemes wherever it stands, and they are short. -/
def LaysOutAnywhere (ls : List Lexeme) (cs : List Char) : Prop :=
  (∀ l ∈ ls, l.Short) ∧ ∀ prev, Layout prev ls cs

section Pieces

variable {l : Lexeme} {ls ls' : List Lexeme} {cs cs' : List Char}

namespace LaysOutAnywhere

theorem nil : LaysOutAnywhere [] [] :=
  ⟨List.forall_mem_nil _, fun _ => .nil (List.forall_mem_nil _)⟩

/-- A mark separates. -/
theorem mark (s : String) (hs : Grammar.marks.contains s = true) (h : LaysOut ls cs) :
    LaysOutAnywhere (.mark s :: ls) (s.toList ++ cs) := by
  have hl : (Lexeme.mark s).Legal := List.contains_iff_mem.mp hs
  have hlast := (Lexeme.isNameChar_of_not_isWord hl rfl).2
  exact ⟨List.forall_mem_cons.mpr ⟨trivial, h.1⟩, fun _ =>
    .lexeme hl (fun hword => nomatch hword) (h.2 _ hlast)⟩

/-- A space separates, too. -/
theorem space (h : LaysOut ls cs) : LaysOutAnywhere ls (' ' :: cs) := by
  refine ⟨h.1, fun prev => ?_⟩
  have hgap : ∀ x ∈ [' '], Text.isGap x = true := List.forall_mem_singleton.mpr rfl
  exact (h.2 (some ' ') rfl).gap_append hgap

theorem laysOut (h : LaysOutAnywhere ls cs) : LaysOut ls cs :=
  ⟨h.1, fun prev _ => h.2 prev⟩

end LaysOutAnywhere

namespace LaysOut

theorem nil : LaysOut [] [] :=
  LaysOutAnywhere.nil.laysOut

/-- Behind a word stands something that separates. -/
theorem cons (hl : l.Legal) (hshort : l.Short) (h : LaysOutAnywhere ls cs) :
    LaysOut (l :: ls) (l.chars ++ cs) :=
  ⟨List.forall_mem_cons.mpr ⟨hshort, h.1⟩, fun _ hprev => .lexeme hl (fun _ => hprev) (h.2 _)⟩

theorem singleton (hl : l.Legal) (hshort : l.Short) : LaysOut [l] l.chars := by
  have h := cons hl hshort .nil
  rwa [List.append_nil] at h

theorem append (h : LaysOut ls cs) (h' : LaysOutAnywhere ls' cs') :
    LaysOut (ls ++ ls') (cs ++ cs') :=
  ⟨List.forall_mem_append.mpr ⟨h.1, h'.1⟩, fun prev hprev => (h.2 prev hprev).append (h'.2 _)⟩

theorem keyword (w : String) (hw : Grammar.keywords.contains w = true)
    (h : LaysOutAnywhere ls cs) : LaysOut (.keyword w :: ls) (w.toList ++ cs) :=
  cons (l := .keyword w) (List.contains_iff_mem.mp hw) trivial h

theorem name {x : String} (hx : Grammar.IsName x) (h : LaysOutAnywhere ls cs) :
    LaysOut (.name x :: ls) (x.toList ++ cs) :=
  cons (l := .name x) hx trivial h

/-- A text between two marks. -/
theorem between (opening closing : String) (ho : Grammar.marks.contains opening = true)
    (hc : Grammar.marks.contains closing = true) (h : LaysOut ls cs) :
    LaysOutAnywhere (.mark opening :: (ls ++ [.mark closing]))
      (opening.toList ++ (cs ++ closing.toList)) := by
  have hclosing : LaysOutAnywhere [.mark closing] closing.toList := by
    have hmark := LaysOutAnywhere.mark closing hc .nil
    rwa [List.append_nil] at hmark
  exact .mark opening ho (h.append hclosing)

end LaysOut

end Pieces

end TypedLambda
