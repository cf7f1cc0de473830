import TypedLambda.Proofs.Grammar.Layout
import TypedLambda.Proofs.Text.TabStop
import TypedLambda.Proofs.Token.Division

/-!
# Layouts as source texts

Before the grammar is applied to a source text, the text is divided into tokens and its tabs are
expanded. Neither does harm to a layout: its gaps and lexemes are pieces, so no character is in
error, and with its tabs expanded it lays out the same lexemes.

## Main results

* `Layout.check`: a layout has no lexical errors
* `Layout.expandTabs`: a layout with expanded tabs
-/

namespace TypedLambda

/-! ## Lexemes -/

theorem Lexeme.tab_not_mem {l : Lexeme} (h : l.Legal) : '\t' ∉ l.chars := by
  intro htab
  cases hw : l.isWord with
  | true => cases isNameChar_of_isWord h hw _ htab
  | false =>
    cases l with
    | mark s =>
      have hmarks : ∀ s ∈ Grammar.marks, '\t' ∉ s.toList := by decide
      exact hmarks s h htab
    | literal content =>
      rcases List.mem_cons.mp htab with hquote | htab
      · cases hquote
      · rcases List.mem_append.mp htab with htab | hquote
        · exact (h _ htab).2.2 rfl
        · cases List.mem_singleton.mp hquote
    | _ => cases hw

namespace Layout

variable {prev : Option Char} {ls : List Lexeme} {cs : List Char}

theorem expandTabsFrom (h : Layout prev ls cs) (column : Nat) :
    Layout prev ls (Text.expandTabsFrom column cs) := by
  have hgaps {gap : List Char} (hgap : ∀ c ∈ gap, Text.isGap c = true) (column : Nat) :=
    Text.forall_mem_expandTabsFrom (p := Text.isGap) rfl hgap column
  induction h generalizing column with
  | nil hgap => exact .nil (hgaps hgap column)
  | @cons _ gap hgap l hl hsep ls cs h ih =>
    obtain ⟨column', hrest⟩ := Text.exists_expandTabsFrom_append gap column
    obtain ⟨column'', hchars⟩ := Text.exists_expandTabsFrom_append l.chars column'
    rw [hrest, hchars, Text.expandTabsFrom_eq_self (Lexeme.tab_not_mem hl)]
    have hkept : Text.expandTabsFrom column gap = [] → gap = [] := Text.expandTabsFrom_eq_nil_iff.mp
    exact .cons (hgaps hgap column) hl (fun hw hnil => hsep hw (hkept hnil)) (ih column'')

/-- With expanded tabs the text lays out the same lexemes. -/
theorem expandTabs (h : Layout prev ls cs) : Layout prev ls (Text.expandTabs cs) :=
  h.expandTabsFrom 0

end Layout

/-! ## Pieces -/

namespace Token

/-- The class of a lexeme, as a piece of text. -/
def classOf : Lexeme → Class
  | .mark _ => .symbol
  | .keyword _ | .name _ | .typeName _ => .word
  | .number _ | .index _ => .number
  | .literal _ => .string

/-- A lexeme is a legal piece. -/
theorem legal_lexeme {l : Lexeme} (h : l.Legal) : Piece.Legal ⟨classOf l, l.chars⟩ := by
  have word {cs : List Char} (hfirst : cs.head?.any Text.isWordStart = true)
      (hcs : ∀ c ∈ cs, Text.isNameChar c = true) : Class.word.Contains cs := by
    cases cs with
    | nil => cases hfirst
    | cons c cs => exact ⟨c, cs, rfl, hfirst, (List.forall_mem_cons.mp hcs).2⟩
  cases l with
  | mark s =>
    have hmarks : ∀ s ∈ Grammar.marks,
        s.toList = ['-', '>'] ∨ (marks.any fun c => s.toList = [c]) = true := by decide
    refine (hmarks s h).imp_right fun hany => ?_
    obtain ⟨c, hc, heq⟩ := List.any_eq_true.mp hany
    exact ⟨c, hc, of_decide_eq_true heq⟩
  | keyword w =>
    have hkeywords : ∀ w ∈ Grammar.keywords, w.toList.head?.any Text.isWordStart = true := by decide
    exact word (hkeywords w h) (Lexeme.isNameChar_of_isWord h rfl)
  | name x =>
    exact word (Text.any_of_any (fun _ => Text.isWordStart_of_isNameStart) h.1)
      (Lexeme.isNameChar_of_isWord h rfl)
  | typeName X =>
    exact word (Text.any_of_any (fun _ => Text.isWordStart_of_isUpper) h.1)
      (Lexeme.isNameChar_of_isWord h rfl)
  | number digits => exact h
  | index i => exact Lexeme.isDigit_of_index h
  | literal content =>
    refine ⟨content, fun hmem => ?_, rfl⟩
    cases (h _ hmem).1

/-- A gap is a legal piece, unless it is empty. -/
theorem Divides.of_gap {ps : List Piece} {gap cs : List Char}
    (hgap : ∀ c ∈ gap, Text.isGap c = true) (h : Divides ps cs) :
    ∃ qs, Divides qs (gap ++ cs) := by
  by_cases hne : gap = []
  · exact ⟨ps, hne ▸ h⟩
  · have hlegal : Piece.Legal ⟨.blank, gap⟩ := ⟨hne, fun c hc => Text.isBlank_of_isGap (hgap c hc)⟩
    exact ⟨_, .cons hlegal h⟩

end Token

namespace Layout

variable {prev : Option Char} {ls : List Lexeme} {cs : List Char}

/-- The gaps and the lexemes divide a layout. -/
theorem exists_divides (h : Layout prev ls cs) : ∃ ps, Token.Divides ps cs := by
  induction h with
  | @nil _ gap hgap =>
    rw [← List.append_nil gap]
    exact Token.Divides.nil.of_gap hgap
  | cons hgap hl _ _ ih =>
    obtain ⟨ps, hps⟩ := ih
    exact (Token.Divides.cons (Token.legal_lexeme hl) hps).of_gap hgap

/-- A layout has no lexical errors. -/
theorem check (h : Layout prev ls cs) : Token.check cs = .ok () :=
  Token.check_eq_ok_iff_divides.mpr h.exists_divides

end Layout

end TypedLambda
