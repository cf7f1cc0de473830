import TypedLambda.Grammar.Term
import TypedLambda.Proofs.Grammar.Lexeme
import TypedLambda.Proofs.Parser.Recursion

/-!
# The recursion of the grammar

Every lexeme has at least one character, and the rules for types and for terms read a lexeme before
they come back to types and terms. So these two rules are guarded, and the parsers that they
describe satisfy them.

## Main results

* `Grammar.guarded_typeRule`, `Grammar.guarded_termRule`: the two rules are guarded
* `Grammar.type_apply`, `Grammar.term_apply`: the rules hold of the parsers for types and terms
* `Grammar.agree_type`, `Grammar.agree_term`: types and terms have at least one character
-/

namespace TypedLambda

namespace Grammar

/-! ## Lexemes -/

theorem reaches_advance_skipGap {c : Cursor} {k : Nat} (h : k ≤ c.skipGap.rest.length) :
    c.Reaches k (c.skipGap.advance k) := by
  have hreach : c.skipGap.Reaches k (c.skipGap.advance k) := ⟨k, Nat.le_refl k, h, rfl⟩
  exact c.reaches_skipGap.zero_trans hreach

theorem agree_mark (s : String) (n : Nat) :
    Parser.Agree s.toList.length n (mark s) (mark s) := by
  intro c _
  refine ⟨rfl, fun r hr => ?_⟩
  obtain ⟨hpre, heq⟩ := mark_eq_ok_iff.mp hr
  exact heq ▸ reaches_advance_skipGap hpre.length_le

theorem agree_keyword (w : String) (n : Nat) :
    Parser.Agree w.toList.length n (keyword w) (keyword w) := by
  intro c _
  refine ⟨rfl, fun r hr => ?_⟩
  obtain ⟨hpre, -, -, heq⟩ := keyword_eq_ok_iff.mp hr
  exact heq ▸ reaches_advance_skipGap hpre.length_le

theorem agree_keyword_bind {α : Type} {p q : Parser α} {n : Nat} (w : String)
    (hw : w.toList.isEmpty = false) (h : Parser.Agree 0 n p q) :
    Parser.Agree 1 (n + 1) (do keyword w; p) (do keyword w; q) :=
  have hlen : 1 ≤ w.toList.length := List.length_pos_iff.mpr (List.isEmpty_eq_false_iff.mp hw)
  (agree_keyword w (n + 1)).guard hlen fun _ => h

theorem agree_notKeyword (n : Nat) : Parser.Agree 0 n notKeyword notKeyword := by
  intro c _
  refine ⟨rfl, fun r hr => ?_⟩
  obtain ⟨-, heq⟩ := notKeyword_eq_ok_iff.mp hr
  exact heq ▸ .refl c

theorem agree_word (reason : String) (first : Char → Bool) (n : Nat) :
    Parser.Agree 1 n (word reason first) (word reason first) := by
  intro c _
  refine ⟨rfl, fun r hr => ?_⟩
  obtain ⟨x, rest, hrest, -, -, heq⟩ := word_eq_ok_iff.mp hr
  have hlen : (rest.takeWhile Text.isNameChar).length + 1 ≤ c.skipGap.rest.length := by
    rw [hrest, List.length_cons]
    exact Nat.succ_le_succ (List.takeWhile_sublist _).length_le
  exact heq ▸ (reaches_advance_skipGap hlen).mono (Nat.le_add_left 1 _)

theorem agree_name (n : Nat) : Parser.Agree 1 n name name :=
  (agree_notKeyword n).seq fun _ => agree_word _ _ n

theorem agree_typeName (n : Nat) : Parser.Agree 1 n typeName typeName :=
  (agree_notKeyword n).seq fun _ => agree_word _ _ n

theorem agree_number [DigitLimit] (n : Nat) : Parser.Agree 1 n number number := by
  intro c _
  refine ⟨rfl, fun r hr => ?_⟩
  obtain ⟨digits, hne, hdigits, -, -, heq⟩ := number_eq_ok_iff.mp hr
  have hlen : digits.length ≤ c.skipGap.rest.length :=
    hdigits ▸ (List.takeWhile_sublist _).length_le
  exact heq ▸ (reaches_advance_skipGap hlen).mono (List.length_pos_iff.mpr hne)

theorem agree_stringLiteral (n : Nat) : Parser.Agree 1 n stringLiteral stringLiteral := by
  intro c _
  refine ⟨rfl, fun r hr => ?_⟩
  obtain ⟨content, rest, hrest, -, -, heq⟩ := stringLiteral_eq_ok_iff.mp hr
  have hlen : content.length + 2 ≤ c.skipGap.rest.length := by
    rw [hrest, List.length_cons, List.length_append, List.length_cons]
    omega
  exact heq ▸ (reaches_advance_skipGap hlen).mono (Nat.le_add_left 1 _)

theorem agree_endOfText (n : Nat) : Parser.Agree 0 n endOfText endOfText := by
  intro c _
  refine ⟨rfl, fun r hr => ?_⟩
  obtain ⟨-, heq⟩ := endOfText_eq_ok_iff.mp hr
  exact heq ▸ c.reaches_skipGap

/-! ## Types -/

section Rules

variable {α : Type} {n : Nat}

theorem agree_between {p q : Parser α} {opening closing : String}
    (ho : opening.toList.isEmpty = false) (h : Parser.Agree 0 n p q) :
    Parser.Agree 1 (n + 1) (between opening closing p) (between opening closing q) :=
  have hlen : 1 ≤ opening.toList.length :=
    List.length_pos_iff.mpr (List.isEmpty_eq_false_iff.mp ho)
  (agree_mark opening (n + 1)).guard hlen fun _ => h.seq fun a =>
    (agree_mark closing n).seq fun _ => Parser.agree_pure a n

/-- Reads a label, a mark and a part. -/
def field (sep : String) (p : Parser α) : Parser (String × α) := do
  let label ← name
  mark sep
  let a ← p
  pure (label, a)

theorem fields_eq (sep : String) (p : Parser α) :
    fields sep p = Parser.optional [] (do
      let r ← Parser.sepBy (field sep p) (mark ",")
      pure (r.1 :: r.2)) := rfl

theorem agree_field {p q : Parser α} (sep : String) (h : Parser.Agree 0 n p q) :
    Parser.Agree 1 (n + 1) (field sep p) (field sep q) :=
  (agree_name (n + 1)).guard (Nat.le_refl 1) fun label => (agree_mark sep n).seq fun _ =>
    h.seq fun a => Parser.agree_pure (label, a) n

theorem agree_fields {p q : Parser α} {sep : String} (h : Parser.Agree 0 n p q) :
    Parser.Agree 0 n (fields sep p) (fields sep q) := by
  have hfield : Parser.Agree 1 n (field sep p) (field sep q) := (agree_field sep h).pred
  rw [fields_eq, fields_eq]
  exact ((hfield.sepBy (agree_mark "," n)).seq fun r => Parser.agree_pure (r.1 :: r.2) n).optional

theorem agree_atomicType {p q : Parser Ty} (h : Parser.Agree 0 n p q) :
    Parser.Agree 1 (n + 1) (atomicType p) (atomicType q) := by
  have hbrackets : Parser.Agree 0 n (between "[" "]" p) (between "[" "]" q) :=
    (agree_between rfl h).pred.zero
  exact Parser.Agree.choice <|
    .cons (agree_keyword_bind "Bool" rfl (Parser.agree_pure Ty.bool n)) <|
    .cons (agree_keyword_bind "Nat" rfl (Parser.agree_pure Ty.nat n)) <|
    .cons (agree_keyword_bind "String" rfl (Parser.agree_pure Ty.string n)) <|
    .cons (agree_keyword_bind "List" rfl (hbrackets.map Ty.list)) <|
    .cons ((agree_between rfl (agree_fields h)).map Ty.record) <|
    .cons ((agree_typeName (n + 1)).map Ty.named) <|
    .cons (agree_between rfl h) .nil

theorem agree_productType {p q : Parser Ty} (h : Parser.Agree 0 n p q) :
    Parser.Agree 1 (n + 1) (productType p) (productType q) :=
  ((agree_atomicType h).sepBy (agree_mark "*" (n + 1))).guard (Nat.le_refl 1) fun _ =>
    Parser.agree_pure _ n

theorem guarded_typeRule : Parser.Guarded typeRule := fun n _ _ h =>
  ((agree_productType h).sepBy (agree_mark "->" (n + 1))).guard (Nat.le_refl 1) fun _ =>
    Parser.agree_pure _ n

/-- The rule for types holds of the parser for types. -/
theorem type_apply (c : Cursor) : type c = typeRule type c :=
  Parser.fix_apply guarded_typeRule c

/-- A type has at least one character. -/
theorem agree_type (n : Nat) : Parser.Agree 1 n type type :=
  Parser.agree_fix guarded_typeRule n

/-! ## Terms -/

theorem agree_selector (n : Nat) : Parser.Agree 1 (n + 1) selector selector :=
  (agree_mark "." (n + 1)).guard (by decide) fun _ => Parser.Agree.choice
    (.cons ((agree_mark "1" n).seq fun _ => Parser.agree_pure Selector.first n)
    (.cons ((agree_mark "2" n).seq fun _ => Parser.agree_pure Selector.second n)
    (.cons ((agree_name n).map Selector.label).zero .nil)))

theorem agree_function {p q : Parser Term} (h : Parser.Agree 0 n p q) :
    Parser.Agree 1 (n + 1) (function p) (function q) := by
  have hword (w : String) (hw : 1 ≤ w.toList.length) :
      Parser.Agree 1 (n + 1) (keyword w) (keyword w) :=
    (agree_keyword w (n + 1)).mono hw (Nat.le_refl _)
  have hstart : Parser.Agree 1 (n + 1)
      (Parser.choice (expected Description.functionStart) [keyword "lambda", keyword "L"])
      (Parser.choice (expected Description.functionStart) [keyword "lambda", keyword "L"]) :=
    Parser.Agree.choice (.cons (hword "lambda" (by decide)) (.cons (hword "L" (by decide)) .nil))
  exact hstart.guard (Nat.le_refl 1) fun _ => (agree_name n).seq fun _ =>
    (agree_mark ":" n).seq fun _ => (agree_type n).seq fun _ => (agree_mark "." n).seq fun _ =>
    h.seq fun _ => Parser.agree_pure _ n

theorem agree_conditional {p q : Parser Term} (h : Parser.Agree 0 n p q) :
    Parser.Agree 1 (n + 1) (conditional p) (conditional q) :=
  agree_keyword_bind "if" rfl <| h.seq fun _ => (agree_keyword "then" n).seq fun _ => h.seq fun _ =>
    (agree_keyword "else" n).seq fun _ => h.seq fun _ => Parser.agree_pure _ n

theorem agree_letRec {p q : Parser Term} (h : Parser.Agree 0 n p q) :
    Parser.Agree 1 (n + 1) (letRec p) (letRec q) :=
  agree_keyword_bind "letrec" rfl <| (agree_name n).seq fun _ => (agree_mark ":" n).seq fun _ =>
    (agree_type n).seq fun _ => (agree_mark "=" n).seq fun _ => h.seq fun _ =>
    (agree_keyword "in" n).seq fun _ => h.seq fun _ => Parser.agree_pure _ n

theorem agree_letIn {p q : Parser Term} (h : Parser.Agree 0 n p q) :
    Parser.Agree 1 (n + 1) (letIn p) (letIn q) :=
  agree_keyword_bind "let" rfl <| (agree_name n).seq fun _ => (agree_mark "=" n).seq fun _ =>
    h.seq fun _ => (agree_keyword "in" n).seq fun _ => h.seq fun _ => Parser.agree_pure _ n

variable [DigitLimit]

theorem agree_atomic {p q : Parser Term} (h : Parser.Agree 0 n p q) :
    Parser.Agree 1 (n + 1) (atomic p) (atomic q) := by
  have htype : Parser.Agree 0 n type type := (agree_type n).zero
  have hbrackets : Parser.Agree 0 n (between "[" "]" type) (between "[" "]" type) :=
    (agree_between rfl htype).pred.zero
  have hpair : Parser.Agree 0 n (do let t ← p; mark ","; let u ← p; pure (Term.pair t u))
      (do let t ← q; mark ","; let u ← q; pure (Term.pair t u)) :=
    h.seq fun t => (agree_mark "," n).seq fun _ => h.seq fun u =>
      Parser.agree_pure (Term.pair t u) n
  apply Parser.Agree.afterGap
  exact Parser.Agree.choice <|
    .cons (agree_keyword_bind "true" rfl (Parser.agree_pure (Term.bool true) n)) <|
    .cons (agree_keyword_bind "false" rfl (Parser.agree_pure (Term.bool false) n)) <|
    .cons ((agree_number (n + 1)).map Term.numeral) <|
    .cons ((agree_stringLiteral (n + 1)).map Term.string) <|
    .cons (agree_keyword_bind "nil" rfl (hbrackets.map Term.nil)) <|
    .cons ((agree_between rfl (agree_fields h)).map Term.record) <|
    .cons (agree_between rfl hpair) <|
    .cons ((agree_name (n + 1)).map Term.var) <|
    .cons (agree_between rfl h) .nil

theorem agree_simple {p q : Parser Term} (h : Parser.Agree 0 n p q) :
    Parser.Agree 1 (n + 1) (simple p) (simple q) :=
  (agree_atomic h).guard (Nat.le_refl 1) fun _ =>
    (agree_selector n).many.pred.seq fun _ => Parser.agree_pure _ n

theorem agree_unary {p q : Parser Term} (h : Parser.Agree 0 n p q) (w : String)
    (hw : w.toList.isEmpty = false) (build : Term → Term) :
    Parser.Agree 1 (n + 1) (unary p w build) (unary q w build) := by
  have hsimple : Parser.Agree 0 n (simple p) (simple q) := (agree_simple h).pred.zero
  exact agree_keyword_bind w hw (hsimple.seq fun _ => Parser.agree_pure _ n)

theorem agree_binary {p q : Parser Term} (h : Parser.Agree 0 n p q) (w : String)
    (hw : w.toList.isEmpty = false) (build : Term → Term → Term) :
    Parser.Agree 1 (n + 1) (binary p w build) (binary q w build) := by
  have hsimple : Parser.Agree 0 n (simple p) (simple q) := (agree_simple h).pred.zero
  exact agree_keyword_bind w hw (hsimple.seq fun _ => hsimple.seq fun _ => Parser.agree_pure _ n)

theorem agree_applicationHead {p q : Parser Term} (h : Parser.Agree 0 n p q) :
    Parser.Agree 1 (n + 1) (applicationHead p) (applicationHead q) :=
  Parser.Agree.choice <|
    .cons (agree_unary h "succ" rfl .succ) <|
    .cons (agree_unary h "pred" rfl .pred) <|
    .cons (agree_unary h "iszero" rfl .isZero) <|
    .cons (agree_unary h "fix" rfl .fix) <|
    .cons (agree_unary h "isnil" rfl .isNil) <|
    .cons (agree_unary h "head" rfl .head) <|
    .cons (agree_unary h "tail" rfl .tail) <|
    .cons (agree_binary h "concat" rfl .concat) <|
    .cons (agree_binary h "cons" rfl .cons) <|
    .cons (agree_simple h) .nil

theorem agree_application {p q : Parser Term} (h : Parser.Agree 0 n p q) :
    Parser.Agree 1 (n + 1) (application p) (application q) :=
  (agree_applicationHead h).guard (Nat.le_refl 1) fun _ =>
    (agree_simple h).pred.many.seq fun _ => Parser.agree_pure _ n

theorem guarded_termRule : Parser.Guarded termRule := by
  intro n p q h
  apply Parser.Agree.afterGap
  exact Parser.Agree.choice <|
    .cons (agree_function h) <|
    .cons (agree_conditional h) <|
    .cons (agree_letRec h) <|
    .cons (agree_letIn h) <|
    .cons (agree_application h) .nil

/-- The rule for terms holds of the parser for terms. -/
theorem term_apply (c : Cursor) : term c = termRule term c :=
  Parser.fix_apply guarded_termRule c

/-- A term has at least one character. -/
theorem agree_term (n : Nat) : Parser.Agree 1 n term term :=
  Parser.agree_fix guarded_termRule n

end Rules

end Grammar

end TypedLambda
