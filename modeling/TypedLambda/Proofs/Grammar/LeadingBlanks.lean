import TypedLambda.Grammar.Command
import TypedLambda.Proofs.Grammar.Recursion
import TypedLambda.Proofs.Parser.Steady
import TypedLambda.Proofs.Text.Letter

/-!
# Blanks in front of a command

A command is read from the gap in front of it as it is read from behind this gap, and it is not read
where another blank comes first: all rules of the grammar start with a lexeme, and none looks at the
text that has been read already, except for the end of a word.

## Main results

* `Grammar.leads_type`, `Grammar.leads_term`: types and terms
* `Grammar.leads_command`: commands
-/

namespace TypedLambda

namespace Grammar

open TypedLambda.Parser (Steady Leads steady_pure leads_firstOf_nil)

/-! ## Lexemes -/

theorem steady_mark (s : String) : Steady (mark s) := by
  refine (numberless_mark s).steady fun c c' hc _ _ h => ?_
  obtain ⟨hpre, rfl⟩ := mark_eq_ok_iff.mp h
  have hgap := hc.skipGap
  exact ⟨_, mark_eq_ok_iff.mpr ⟨hgap.1 ▸ hpre, rfl⟩, hgap.advance _⟩

theorem steady_keyword (w : String) : Steady (keyword w) := by
  refine (numberless_keyword w).steady fun c c' hc _ _ h => ?_
  obtain ⟨hpre, hprev, hnext, rfl⟩ := keyword_eq_ok_iff.mp h
  have hgap := hc.skipGap
  have hend := hgap.advance w.toList.length
  exact ⟨_, keyword_eq_ok_iff.mpr ⟨hgap.1 ▸ hpre, hgap.2 ▸ hprev, hend.1 ▸ hnext, rfl⟩, hend⟩

theorem atKeyword_eq_of_alike {c c' : Cursor} (hc : c.Alike c') : atKeyword c = atKeyword c' := by
  rw [Bool.eq_iff_iff, atKeyword_eq_true_iff, atKeyword_eq_true_iff]
  have found {c c' : Cursor} (hc : c.Alike c') (h : ∃ w ∈ keywords, ∃ r, keyword w c = .ok r) :
      ∃ w ∈ keywords, ∃ r, keyword w c' = .ok r := by
    obtain ⟨w, hw, r, hr⟩ := h
    obtain ⟨d, hd, -⟩ := (hr ▸ steady_keyword w c c' hc).exists_ok
    exact ⟨w, hw, _, hd⟩
  exact ⟨found hc, found hc.symm⟩

theorem steady_notKeyword : Steady notKeyword := by
  refine numberless_notKeyword.steady fun c c' hc _ _ h => ?_
  obtain ⟨hkeyword, rfl⟩ := notKeyword_eq_ok_iff.mp h
  exact ⟨c', notKeyword_eq_ok_iff.mpr ⟨atKeyword_eq_of_alike hc ▸ hkeyword, rfl⟩, hc⟩

theorem steady_word (reason : String) (first : Char → Bool) : Steady (word reason first) := by
  refine (numberless_word reason first).steady fun c c' hc _ _ h => ?_
  obtain ⟨x, rest, hrest, hx, rfl, rfl⟩ := word_eq_ok_iff.mp h
  have hgap := hc.skipGap
  exact ⟨_, word_eq_ok_iff.mpr ⟨x, rest, hgap.1 ▸ hrest, hx, rfl, rfl⟩, hgap.advance _⟩

theorem steady_number [DigitLimit] : Steady number := by
  intro c c' hc
  have hgap := hc.skipGap
  simp only [number, ← hgap.1]
  split
  · exact .failure _ _
  · split
    · exact .ok _ (hgap.advance _)
    · exact .overlong _

theorem steady_stringLiteral : Steady stringLiteral := by
  refine numberless_stringLiteral.steady fun c c' hc _ _ h => ?_
  obtain ⟨content, rest, hrest, hall, rfl, rfl⟩ := stringLiteral_eq_ok_iff.mp h
  have hgap := hc.skipGap
  exact ⟨_, stringLiteral_eq_ok_iff.mpr ⟨content, rest, hgap.1 ▸ hrest, hall, rfl, rfl⟩,
    hgap.advance _⟩

theorem steady_endOfText : Steady endOfText := by
  intro c c' hc
  have hgap := hc.skipGap
  simp only [endOfText, ← hgap.1]
  split
  · exact .ok () hgap
  · exact .failure _ _

/-- The beginning of the text ahead is no blank when it is a lexeme without blanks. -/
theorem not_blank_of_prefix {s cs : List Char} (hs : s.head?.any (!Text.isBlank ·) = true)
    (h : s <+: cs) : cs.head?.any Text.isBlank = false := by
  obtain ⟨after, rfl⟩ := h
  cases s with
  | nil => cases hs
  | cons x s => simpa using hs

theorem leads_mark {s : String} (hs : s.toList.head?.any (!Text.isBlank ·) = true) :
    Leads (mark s) where
  steady := steady_mark s
  behindGap c := .of_eq (by simp only [mark, c.skipGap_skipGap])
  notBlank _ _ hr := not_blank_of_prefix hs (mark_eq_ok_iff.mp hr).1

theorem leads_keyword {w : String} (hw : w.toList.head?.any (!Text.isBlank ·) = true) :
    Leads (keyword w) where
  steady := steady_keyword w
  behindGap c := .of_eq (by simp only [keyword, c.skipGap_skipGap])
  notBlank _ _ hr := not_blank_of_prefix hw (keyword_eq_ok_iff.mp hr).1

theorem atKeyword_skipGap (c : Cursor) : atKeyword c.skipGap = atKeyword c := by
  simp only [atKeyword, keyword, c.skipGap_skipGap]

theorem leads_word {reason : String} {first : Char → Bool}
    (hfirst : ∀ x, first x = true → Text.isBlank x = false) :
    Leads (do notKeyword; word reason first) where
  steady := steady_notKeyword.bind fun _ => steady_word reason first
  behindGap c := by
    have hword : word reason first c.skipGap = word reason first c := by
      simp only [word, c.skipGap_skipGap]
    simp only [Parser.bind_apply, notKeyword, atKeyword_skipGap]
    cases atKeyword c with
    | true => exact .failure _ _
    | false =>
      exact .of_eq hword.symm
  notBlank c r hr := by
    obtain ⟨_, c', hnot, hr⟩ := Parser.bind_eq_ok_iff.mp hr
    obtain ⟨-, rfl⟩ := notKeyword_eq_ok_iff.mp hnot
    obtain ⟨x, rest, hrest, hx, -⟩ := word_eq_ok_iff.mp hr
    rw [hrest]
    exact hfirst x hx

theorem leads_name : Leads name :=
  leads_word fun _ hx => Text.isBlank_of_isNameChar (Text.isNameChar_of_isNameStart hx)

theorem leads_typeName : Leads typeName :=
  leads_word fun _ hx => Text.isBlank_of_isNameChar (Text.isNameChar_of_isUpper hx)

theorem leads_number [DigitLimit] : Leads number where
  steady := steady_number
  behindGap c := .of_eq (by simp only [number, c.skipGap_skipGap])
  notBlank c r hr := by
    obtain ⟨digits, hne, hdigits, -⟩ := number_eq_ok_iff.mp hr
    cases hrest : c.skipGap.rest with
    | nil => rfl
    | cons x rest =>
      have hx : x.isDigit = true := by
        by_contra hx
        rw [hrest, List.takeWhile_cons_of_neg hx] at hdigits
        exact hne hdigits.symm
      exact Text.isBlank_of_isNameChar (Text.isNameChar_of_isDigit hx)

theorem leads_stringLiteral : Leads stringLiteral where
  steady := steady_stringLiteral
  behindGap c := .of_eq (by simp only [stringLiteral, c.skipGap_skipGap])
  notBlank c r hr := by
    obtain ⟨content, rest, hrest, -⟩ := stringLiteral_eq_ok_iff.mp hr
    rw [hrest]
    rfl

/-! ## Types -/

section Parts

variable {α : Type} {p : Parser α}

theorem leads_between {opening : String} (closing : String)
    (ho : opening.toList.head?.any (!Text.isBlank ·) = true) (h : Steady p) :
    Leads (between opening closing p) :=
  (leads_mark ho).bind fun _ => h.bind fun a => (steady_mark closing).bind fun _ => steady_pure a

theorem steady_fields (sep : String) (h : Steady p) : Steady (fields sep p) := by
  have hfield : Leads (field sep p) :=
    leads_name.bind fun label => (steady_mark sep).bind fun _ => h.bind fun a =>
      steady_pure (label, a)
  rw [fields_eq]
  exact ((hfield.sepBy (steady_mark ",")).bind fun r => steady_pure (r.1 :: r.2)).steady.optional

end Parts

section Types

variable {p : Parser Ty}

theorem leads_atomicType (h : Steady p) : Leads (atomicType p) :=
  Leads.choice <|
    .or ((leads_keyword rfl).bind fun _ => steady_pure Ty.bool) <|
    .or ((leads_keyword rfl).bind fun _ => steady_pure Ty.nat) <|
    .or ((leads_keyword rfl).bind fun _ => steady_pure Ty.string) <|
    .or ((leads_keyword rfl).bind fun _ =>
      (leads_between "]" rfl h).steady.map Ty.list) <|
    .or ((leads_between "\x7d" rfl (steady_fields ":" h)).map Ty.record) <|
    .or (leads_typeName.map Ty.named) <|
    .or (leads_between ")" rfl h) leads_firstOf_nil

theorem leads_productType (h : Steady p) : Leads (productType p) :=
  ((leads_atomicType h).sepBy (steady_mark "*")).bind fun _ => steady_pure _

theorem leads_typeRule (h : Steady p) : Leads (typeRule p) :=
  ((leads_productType h).sepBy (steady_mark "->")).bind fun _ => steady_pure _

theorem steady_type : Steady type :=
  Steady.fix fun _ h => (leads_typeRule h).steady

/-- A type starts with a lexeme. -/
theorem leads_type : Leads type := by
  have hrule : type = typeRule type := funext type_apply
  rw [hrule]
  exact leads_typeRule steady_type

end Types

/-! ## Terms -/

section Terms

variable {p : Parser Term}

theorem steady_pair (h : Steady p) :
    Steady (do let t ← p; mark ","; let u ← p; pure (Term.pair t u)) :=
  h.bind fun t => (steady_mark ",").bind fun _ => h.bind fun u => steady_pure (Term.pair t u)

theorem leads_selector : Leads selector :=
  (leads_mark rfl).bind fun _ => Leads.steady <| Leads.choice <|
    .or ((leads_mark rfl).bind fun _ => steady_pure Selector.first) <|
    .or ((leads_mark rfl).bind fun _ => steady_pure Selector.second) <|
    .or (leads_name.map Selector.label) leads_firstOf_nil

theorem leads_function (h : Steady p) : Leads (function p) :=
  (Leads.choice <| .or (leads_keyword rfl) <| .or (leads_keyword rfl)
      leads_firstOf_nil).bind fun _ =>
    leads_name.steady.bind fun x => (steady_mark ":").bind fun _ => steady_type.bind fun T =>
    (steady_mark ".").bind fun _ => h.bind fun t => steady_pure (Term.lam x T t)

theorem leads_conditional (h : Steady p) : Leads (conditional p) :=
  (leads_keyword rfl).bind fun _ => h.bind fun t => (steady_keyword "then").bind fun _ =>
    h.bind fun u => (steady_keyword "else").bind fun _ => h.bind fun v =>
    steady_pure (Term.ite t u v)

theorem leads_letRec (h : Steady p) : Leads (letRec p) :=
  (leads_keyword rfl).bind fun _ =>
    leads_name.steady.bind fun f => (steady_mark ":").bind fun _ => steady_type.bind fun T =>
    (steady_mark "=").bind fun _ => h.bind fun t => (steady_keyword "in").bind fun _ =>
    h.bind fun u => steady_pure (Term.letIn f (.fix (.lam f T t)) u)

theorem leads_letIn (h : Steady p) : Leads (letIn p) :=
  (leads_keyword rfl).bind fun _ =>
    leads_name.steady.bind fun x => (steady_mark "=").bind fun _ => h.bind fun t =>
    (steady_keyword "in").bind fun _ => h.bind fun u => steady_pure (Term.letIn x t u)

variable [DigitLimit]

theorem leads_atomic (h : Steady p) : Leads (atomic p) :=
  Leads.afterGap <| Leads.choice <|
    .or ((leads_keyword rfl).bind fun _ => steady_pure (Term.bool true)) <|
    .or ((leads_keyword rfl).bind fun _ => steady_pure (Term.bool false)) <|
    .or (leads_number.map Term.numeral) <|
    .or (leads_stringLiteral.map Term.string) <|
    .or ((leads_keyword rfl).bind fun _ =>
      (leads_between "]" rfl steady_type).steady.map Term.nil) <|
    .or ((leads_between "\x7d" rfl (steady_fields "=" h)).map Term.record) <|
    .or (leads_between "\x7d" rfl (steady_pair h)) <|
    .or (leads_name.map Term.var) <|
    .or (leads_between ")" rfl h) leads_firstOf_nil

theorem leads_simple (h : Steady p) : Leads (simple p) :=
  (leads_atomic h).bind fun _ => leads_selector.steady.many.bind fun _ => steady_pure _

theorem leads_unary (h : Steady p) {w : String} (hw : w.toList.head?.any (!Text.isBlank ·) = true)
    (build : Term → Term) : Leads (unary p w build) :=
  (leads_keyword hw).bind fun _ => (leads_simple h).steady.bind fun t => steady_pure (build t)

theorem leads_binary (h : Steady p) {w : String} (hw : w.toList.head?.any (!Text.isBlank ·) = true)
    (build : Term → Term → Term) : Leads (binary p w build) :=
  (leads_keyword hw).bind fun _ => (leads_simple h).steady.bind fun t =>
    (leads_simple h).steady.bind fun u => steady_pure (build t u)

theorem leads_applicationHead (h : Steady p) : Leads (applicationHead p) :=
  Leads.choice <|
    .or (leads_unary h rfl .succ) <|
    .or (leads_unary h rfl .pred) <|
    .or (leads_unary h rfl .isZero) <|
    .or (leads_unary h rfl .fix) <|
    .or (leads_unary h rfl .isNil) <|
    .or (leads_unary h rfl .head) <|
    .or (leads_unary h rfl .tail) <|
    .or (leads_binary h rfl .concat) <|
    .or (leads_binary h rfl .cons) <|
    .or (leads_simple h) leads_firstOf_nil

theorem leads_application (h : Steady p) : Leads (application p) :=
  (leads_applicationHead h).bind fun _ => (leads_simple h).steady.many.bind fun _ => steady_pure _

theorem leads_termRule (h : Steady p) : Leads (termRule p) :=
  Leads.afterGap <| Leads.choice <|
    .or (leads_function h) <|
    .or (leads_conditional h) <|
    .or (leads_letRec h) <|
    .or (leads_letIn h) <|
    .or (leads_application h) leads_firstOf_nil

theorem steady_term : Steady term :=
  Steady.fix fun _ h => (leads_termRule h).steady

/-- A term starts with a lexeme. -/
theorem leads_term : Leads term := by
  have hrule : term = termRule term := funext term_apply
  rw [hrule]
  exact leads_termRule steady_term

end Terms

/-! ## Commands -/

theorem leads_whole {α : Type} {p : Parser α} (h : Leads p) : Leads (whole p) :=
  h.bind fun a => steady_endOfText.bind fun _ => steady_pure a

theorem leads_abbreviation : Leads abbreviation :=
  leads_typeName.bind fun X => (steady_mark "=").bind fun _ => steady_type.bind fun T =>
    steady_pure (Command.abbreviate X T)

variable [DigitLimit]

theorem leads_definition : Leads definition :=
  leads_name.bind fun x => (steady_mark "=").bind fun _ => steady_term.bind fun t =>
    steady_pure (Command.define x t)

/-- A command starts with a lexeme. -/
theorem leads_command : Leads command :=
  Leads.choice <|
    .or (leads_whole leads_abbreviation) <|
    .or (leads_whole leads_definition) <|
    .or (leads_whole (leads_term.map Command.evaluate)) <|
    .or (leads_whole (leads_type.map Command.showType)) leads_firstOf_nil

end Grammar

end TypedLambda
