import TypedLambda.Proofs.Grammar.LeadingBlanks
import TypedLambda.Proofs.Grammar.Names
import TypedLambda.Proofs.Text.TabStop
import TypedLambda.Proofs.Token.Division
import TypedLambda.Session

/-!
# Blank lines in front of a statement

What stands in front of a statement on earlier lines is part of it when the statement is cut out of
a whole text, but not when it is entered line by line. As long as these lines are blank, this makes
no difference to a statement that is read: without them it denotes the same command. The scan for
tokens passes over blanks, a tab behind a line end is as wide as at the beginning, and the grammar
starts behind the gap in any case. The converse fails, since there are blanks over which the grammar
does not pass.

## Main definitions

* `Token.Scan.Alike`: scans that differ in the place of the error at most

## Main results

* `Token.scan_alike_of_blanks`: blanks in front of a text have no tokens
* `Parser.Leads.read_of_blankLine`: what a rule reads behind blank lines, it reads without them
* `Session.command_of_blankLine`: a statement without the blank lines in front of it
-/

namespace TypedLambda

/-! ## Tokens -/

namespace Token

/-- The same tokens, and an error behind them in both scans or in neither. -/
def Scan.Alike (s s' : Scan) : Prop :=
  s.tokens = s'.tokens ∧ s.error.isNone = s'.error.isNone

variable {pos pos' : Nat} {cs : List Char} {s s' : Scan}

theorem Scan.Alike.push (h : s.Alike s') (p : Piece) : (s.push p).Alike (s'.push p) := by
  rw [Scan.push, Scan.push]
  split
  · exact h
  · exact ⟨congrArg (p.chars :: ·) h.1, h.2⟩

/-- Where a text stands makes no difference but for the place of the error. -/
theorem Scans.alike (h : Scans pos cs s) (h' : Scans pos' cs s') : s.Alike s' := by
  induction h generalizing pos' s' with
  | nil =>
    cases h' with
    | nil => exact ⟨rfl, rfl⟩
    | piece hpiece => cases hpiece
  | error hnone =>
    cases h' with
    | error => exact ⟨rfl, rfl⟩
    | piece hpiece => rw [hnone] at hpiece; cases hpiece
  | @piece _ _ _ p _ hpiece _ ih =>
    cases h' with
    | nil => cases hpiece
    | error hnone => rw [hnone] at hpiece; cases hpiece
    | piece hpiece' h' =>
      rw [hpiece] at hpiece'
      cases hpiece'
      exact (ih h').push p

/-- Blanks at the beginning of a text have no tokens. -/
theorem Scans.dropWhile_isBlank (h : Scans pos cs s) :
    ∃ pos', Scans pos' (cs.dropWhile Text.isBlank) s := by
  by_cases hblank : cs.head?.any Text.isBlank = true
  · cases h with
    | nil => cases hblank
    | @error _ c _ hnone =>
      have hc : Text.isBlank c = true := hblank
      rw [piece?, if_pos hc] at hnone
      cases hnone
    | @piece _ _ rest p s hpiece hs =>
      obtain ⟨hp, rfl, hnext⟩ := eq_append_of_piece? hpiece
      have hcls : p.cls = .blank := by
        by_contra hcls
        rw [any_head?_append hp.chars_ne_nil, hp.isBlank_head? hcls] at hblank
        cases hblank
      have hchars : ∀ c ∈ p.chars, Text.isBlank c = true := by
        obtain ⟨cls, chars⟩ := p
        subst hcls
        exact hp.2
      rw [hcls] at hnext
      rw [Scan.push_of_blank hcls, (Grammar.takeWhile_append_of_next hchars hnext).2]
      exact ⟨_, hs⟩
  · rw [Bool.not_eq_true] at hblank
    rw [Grammar.dropWhile_eq_self_of_next hblank]
    exact ⟨pos, h⟩

/-- Blanks in front of a text have no tokens. -/
theorem scan_alike_of_blanks {blanks : List Char} (h : ∀ c ∈ blanks, Text.isBlank c = true)
    (cs : List Char) : (scan (blanks ++ cs)).Alike (scan cs) := by
  obtain ⟨pos, hfront⟩ := (scans_iff.mpr (rfl : scan (blanks ++ cs) = _)).dropWhile_isBlank
  obtain ⟨pos', hcs⟩ := (scans_iff.mpr (rfl : scan cs = _)).dropWhile_isBlank
  rw [List.dropWhile_append_of_pos h] at hfront
  exact hfront.alike hcs

end Token

/-! ## Tabs -/

namespace Text

/-- A blank line is blank to its end. -/
theorem isBlank_of_mem_line {blanks : List Char} (h : ∀ c ∈ blanks, isBlank c = true) :
    ∀ c ∈ blanks ++ ['\n'], isBlank c = true :=
  List.forall_mem_append.mpr ⟨h, List.forall_mem_singleton.mpr (by decide)⟩

/-- Blanks stay blanks, and the line behind them has its tabs expanded as if it came first. -/
theorem exists_expandTabsFrom_blankLine {blanks : List Char} (h : ∀ c ∈ blanks, isBlank c = true)
    (column : Nat) :
    ∃ blanks', (∀ c ∈ blanks', isBlank c = true) ∧
      ∀ cs, expandTabsFrom column (blanks ++ '\n' :: cs) = blanks' ++ expandTabs cs := by
  obtain ⟨column', hrest⟩ := exists_expandTabsFrom_append blanks column
  have hblanks := forall_mem_expandTabsFrom (p := isBlank) (by decide) h column
  refine ⟨expandTabsFrom column blanks ++ ['\n'], isBlank_of_mem_line hblanks, fun cs => ?_⟩
  rw [hrest, expandTabsFrom, if_neg (by decide), if_pos (.inl rfl), List.append_assoc]
  rfl

end Text

/-! ## The grammar -/

/-- In front of a lexeme at the beginning of a text no word ends. -/
theorem Cursor.prev_skipGap_start (cs : List Char) :
    (start cs).skipGap.prev.any Text.isNameChar = false := by
  rcases (behind_start cs).skipGap with ⟨hsame, -⟩ | ⟨gapped, hgapped, hlast⟩
  · rw [hsame.prev_eq]
    rfl
  · rwa [hgapped.prev_eq]

/-- Blanks behind which a text starts with no blank, but for gaps, are gaps themselves. -/
theorem Text.dropWhile_isGap_append {blanks cs : List Char}
    (h : ∀ c ∈ blanks, isBlank c = true)
    (hnext : ((blanks ++ cs).dropWhile isGap).head?.any isBlank = false) :
    (blanks ++ cs).dropWhile isGap = cs.dropWhile isGap := by
  induction blanks with
  | nil => rfl
  | cons c blanks ih =>
    obtain ⟨hc, hblanks⟩ := List.forall_mem_cons.mp h
    by_cases hgap : isGap c = true
    · rw [List.cons_append, List.dropWhile_cons_of_pos hgap] at hnext ⊢
      exact ih hblanks hnext
    · rw [List.cons_append, List.dropWhile_cons_of_neg hgap, List.head?_cons, Option.any_some,
        hc] at hnext
      cases hnext

namespace Parser

variable {α : Type} {p : Parser α}

/-- What is read behind blanks is read without them. -/
theorem Leads.start_of_blanks (h : Leads p) {blanks cs : List Char}
    (hblanks : ∀ c ∈ blanks, Text.isBlank c = true) {a : α} {c : Cursor}
    (hread : p (Cursor.start (blanks ++ cs)) = .ok (a, c)) :
    ∃ c', p (Cursor.start cs) = .ok (a, c') := by
  have hnext := h.notBlank _ _ hread
  rw [Cursor.skipGap, Cursor.rest_skip] at hnext
  have halike : (Cursor.start (blanks ++ cs)).skipGap.Alike (Cursor.start cs).skipGap := by
    refine ⟨?_, ?_⟩
    · rw [Cursor.skipGap, Cursor.skipGap, Cursor.rest_skip, Cursor.rest_skip]
      exact Text.dropWhile_isGap_append hblanks hnext
    · rw [Cursor.prev_skipGap_start, Cursor.prev_skipGap_start]
  have hsame : Alike (p (Cursor.start (blanks ++ cs))) (p (Cursor.start cs)) :=
    ((h.behindGap _).trans (h.steady _ _ halike)).trans (h.behindGap _).symm
  obtain ⟨c', hc', -⟩ := (hread ▸ hsame).exists_ok
  exact ⟨c', hc'⟩

/-- What a rule reads behind blank lines, it reads without them. -/
theorem Leads.read_of_blankLine {rule : Parser α} (h : Leads rule) {blanks cs : List Char}
    (hblanks : ∀ c ∈ blanks, Text.isBlank c = true) {a : α}
    (hread : Grammar.read rule (blanks ++ '\n' :: cs) = .ok a) : Grammar.read rule cs = .ok a := by
  rw [Grammar.read_eq_ok_iff] at hread ⊢
  obtain ⟨hcheck, c, hc⟩ := hread
  constructor
  · have hline := Text.isBlank_of_mem_line hblanks
    rw [← List.singleton_append, ← List.append_assoc, Token.check_eq_ok_iff,
      ← Option.isNone_iff_eq_none, (Token.scan_alike_of_blanks hline cs).2] at hcheck
    exact Token.check_eq_ok_iff.mpr (Option.isNone_iff_eq_none.mp hcheck)
  · obtain ⟨blanks', hblanks', hexpand⟩ := Text.exists_expandTabsFrom_blankLine hblanks 0
    rw [Text.expandTabs, hexpand] at hc
    exact (Grammar.leads_whole h).start_of_blanks hblanks' hc

end Parser

/-! ## Statements -/

/-- A statement denotes a command when it is read and its brackets do not nest too deeply. -/
theorem Session.command_eq_ok_iff [DigitLimit] {cfg : Settings} {source : String} {cmd : Command} :
    Session.command cfg source = .ok cmd ↔
      ((Token.scan source.toList).error.isNone &&
        cfg.nesting < Token.nesting 0 (Token.scan source.toList).tokens) = false ∧
      Command.parse source = .ok cmd := by
  rw [Session.command]
  cases (Token.scan source.toList).error.isNone &&
      cfg.nesting < Token.nesting 0 (Token.scan source.toList).tokens with
  | true => simp
  | false => cases Command.parse source <;> simp

/-- A statement denotes the same command without the blank lines in front of it. -/
theorem Session.command_of_blankLine [DigitLimit] {cfg : Settings} {blanks cs : List Char}
    (hblanks : ∀ c ∈ blanks, Text.isBlank c = true) {cmd : Command}
    (h : Session.command cfg (String.ofList (blanks ++ '\n' :: cs)) = .ok cmd) :
    Session.command cfg (String.ofList cs) = .ok cmd := by
  have hline := Text.isBlank_of_mem_line hblanks
  obtain ⟨htokens, herror⟩ := Token.scan_alike_of_blanks hline cs
  rw [List.append_assoc, List.singleton_append] at htokens herror
  obtain ⟨hnesting, hparse⟩ := command_eq_ok_iff.mp h
  rw [String.toList_ofList] at hnesting
  rw [Command.parse, String.toList_ofList] at hparse
  refine command_eq_ok_iff.mpr ⟨?_, ?_⟩
  · rwa [String.toList_ofList, ← htokens, ← herror]
  · rw [Command.parse, String.toList_ofList]
    exact Grammar.leads_command.read_of_blankLine hblanks hparse

end TypedLambda
