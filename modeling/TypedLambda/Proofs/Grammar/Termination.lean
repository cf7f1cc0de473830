import TypedLambda.Proofs.Grammar.Number
import TypedLambda.Proofs.Parser.Plan

/-!
# Reading comes to an end

The rules of the grammar use each other: types stand inside types and terms, terms inside terms.
Each rule has a plan, which shows where, and its parser is the one that the plan describes. At the
place where a rule starts, it may use only the rules in a fixed table, which go down from terms to atomic
terms and from types to atomic types. All other uses come behind a lexeme, and so does whatever is
repeated.

So reading a source text comes to an end, in its denotation or in a failure inside the text, or at a
number there that is too long.

## Main definitions

* `Grammar.Rule`, `Grammar.Rule.plan`: the rules and what they do
* `Grammar.Rule.opens`: the rules that may be used at the place where a rule starts
* `Grammar.rules`: the rules with all that is known of them
* `Grammar.Settles`, `Grammar.BreaksOff`: what reading a source text may come to

## Main results

* `Grammar.Rule.guarded_plan`: where rules use each other
* `Grammar.settles_or_breaksOff_read`: failures lie in the text, and so do numbers
* `Grammar.reading_terminates`: reading comes to an end
* `Grammar.not_settles_zeros`: a number that is too long
-/

namespace TypedLambda

namespace Grammar

/-! ## Lexemes -/

section Inside

variable {α : Type} {c : Cursor} {x : Halt}

theorem one_le_length_toList_iff (s : String) : 1 ≤ s.toList.length ↔ s ≠ "" := by
  rw [Nat.one_le_iff_ne_zero, ne_eq, List.length_eq_zero_iff, String.toList_eq_nil_iff]

theorem pos_skipGap_le (c : Cursor) : c.skipGap.pos ≤ c.pos + c.rest.length := by
  have h := c.reaches_skipGap.pos_add_length
  omega

variable [DigitLimit]

/-- Most lexemes fail behind the gap. -/
theorem inside_of_skipGap {reason : String}
    (h : (.error (.failure ⟨c.skipGap.pos, reason⟩) : Except Halt (α × Cursor)) = .error x) :
    x.Inside c := by
  obtain rfl := Except.error.inj h
  exact pos_skipGap_le c

theorem inside_mark {s : String} (h : mark s c = .error x) : x.Inside c := by
  simp only [mark] at h
  split at h
  · cases h
  · exact inside_of_skipGap h

theorem inside_keyword {w : String} (h : keyword w c = .error x) : x.Inside c := by
  have hgap := c.reaches_skipGap.pos_add_length
  have hnext := Cursor.pos_add_length_advance w.toList.length c.skipGap
  simp only [keyword] at h
  split at h
  · exact inside_of_skipGap h
  · split at h
    · -- the failure lies in front of the character that precedes the keyword
      obtain rfl := Except.error.inj h
      exact Nat.le_trans (Nat.sub_le _ 1) (pos_skipGap_le c)
    · split at h
      · obtain rfl := Except.error.inj h
        dsimp only [Halt.Inside]
        omega
      · cases h

theorem inside_name_of_word {reason : String} {first : Char → Bool}
    (h : (do notKeyword; word reason first) c = .error x) : x.Inside c := by
  rw [Parser.bind_apply, notKeyword] at h
  cases hk : atKeyword c with
  | true =>
    rw [hk] at h
    obtain rfl := Except.error.inj h
    exact Nat.le_add_right _ _
  | false =>
    simp only [hk, Bool.false_eq_true, if_false, word] at h
    split at h
    · split at h
      · cases h
      · exact inside_of_skipGap h
    · exact inside_of_skipGap h

theorem inside_number (h : number c = .error x) : x.Inside c := by
  simp only [number] at h
  split at h
  · exact inside_of_skipGap h
  · split at h
    · cases h
    · rename_i hadmits
      obtain rfl := Except.error.inj h
      exact ⟨c.skipGap, c.reaches_skipGap, rfl, (Bool.not_eq_true _).mp hadmits⟩

theorem inside_stringLiteral (h : stringLiteral c = .error x) : x.Inside c := by
  simp only [stringLiteral] at h
  split at h
  · split at h
    · cases h
    · exact inside_of_skipGap h
  · exact inside_of_skipGap h

theorem inside_endOfText (h : endOfText c = .error x) : x.Inside c := by
  simp only [endOfText] at h
  split at h
  · cases h
  · exact inside_of_skipGap h

end Inside

end Grammar

namespace Lexical

open Grammar

variable [DigitLimit]

/-- A parser that reads at least so many characters, as a lexeme. -/
def ofAgree {α : Type} (p : Parser α) (least : Nat) (hp : ∀ n, Parser.Agree least n p p)
    (inside : ∀ c x, p c = .error x → x.Inside c) : Lexical α where
  parser := p
  least := least
  reaches := fun c => (hp _ c (Nat.lt_succ_self _)).2
  inside := inside

/-- A mark. -/
def mark (s : String) : Lexical Unit :=
  ofAgree (Grammar.mark s) s.toList.length (agree_mark s) fun _ _ => inside_mark

/-- A keyword. -/
def keyword (w : String) : Lexical Unit :=
  ofAgree (Grammar.keyword w) w.toList.length (agree_keyword w) fun _ _ => inside_keyword

/-- A name of a variable or a label. -/
def name : Lexical String :=
  ofAgree Grammar.name 1 agree_name fun _ _ => inside_name_of_word

/-- A name of a type. -/
def typeName : Lexical String :=
  ofAgree Grammar.typeName 1 agree_typeName fun _ _ => inside_name_of_word

/-- A number. -/
def number : Lexical Nat :=
  ofAgree Grammar.number 1 agree_number fun _ _ => inside_number

/-- A string literal. -/
def stringLiteral : Lexical String :=
  ofAgree Grammar.stringLiteral 1 agree_stringLiteral fun _ _ => inside_stringLiteral

/-- The end of the text. -/
def endOfText : Lexical Unit :=
  ofAgree Grammar.endOfText 0 agree_endOfText fun _ _ => inside_endOfText

end Lexical

namespace Grammar

/-! ## Rules -/

/-- The rules for types and terms. -/
inductive Rule where
  /-- Chains of products, with arrows between them. -/
  | type
  /-- Chains of atomic types, with stars between them. -/
  | productType
  /-- Constant types, names, brackets and braces. -/
  | atomicType
  /-- All terms. -/
  | term
  /-- Functions. -/
  | function
  /-- Conditionals. -/
  | conditional
  /-- Recursive definitions inside terms. -/
  | letRec
  /-- Definitions inside terms. -/
  | letIn
  /-- Terms with arguments behind them. -/
  | application
  /-- What an application may start with. -/
  | applicationHead
  /-- Atomic terms with selectors behind them. -/
  | simple
  /-- Constants, names, brackets and braces. -/
  | atomic
deriving Repr, DecidableEq

namespace Rule

open Plan

/-- What a rule reads. -/
@[reducible] def Result : Rule → Type
  | type | productType | atomicType => Ty
  | term | function | conditional | letRec | letIn | application | applicationHead | simple
  | atomic => Term

/-! ### The order of the rules -/

/-- The rules with which a rule may open. -/
def opens : Rule → List Rule
  | type => [productType]
  | productType => [atomicType]
  | term => [function, conditional, letRec, letIn, application]
  | application => [applicationHead]
  | applicationHead => [simple]
  | simple => [atomic]
  | atomicType | function | conditional | letRec | letIn | atomic => []

/-- How many rules may open each other from this one on, at the most. -/
def height : Rule → Nat
  | term => 4
  | application => 3
  | type | applicationHead => 2
  | productType | simple => 1
  | atomicType | function | conditional | letRec | letIn | atomic => 0

/-- The rule is one for types. -/
def isForTypes : Rule → Bool
  | type | productType | atomicType => true
  | _ => false

theorem height_lt_of_mem_opens {r r' : Rule} (h : r' ∈ r.opens) :
    r'.height < r.height ∧ r'.isForTypes = r.isForTypes := by
  revert h
  cases r <;> cases r' <;> decide

/-- The rules that other rules come back to. -/
def recursive : List Rule :=
  [type, term, atomic]

variable [DigitLimit]

/-- The parser for a rule. -/
def parser : ∀ r : Rule, Parser r.Result
  | type => Grammar.type
  | productType => Grammar.productType Grammar.type
  | atomicType => Grammar.atomicType Grammar.type
  | term => Grammar.term
  | function => Grammar.function Grammar.term
  | conditional => Grammar.conditional Grammar.term
  | letRec => Grammar.letRec Grammar.term
  | letIn => Grammar.letIn Grammar.term
  | application => Grammar.application Grammar.term
  | applicationHead => Grammar.applicationHead Grammar.term
  | simple => Grammar.simple Grammar.term
  | atomic => Grammar.atomic Grammar.term

/-! ### Plans -/

/-- A mark. -/
def mark (s : String) : Plan Result Unit :=
  lexeme (.mark s)

/-- A keyword. -/
def keyword (w : String) : Plan Result Unit :=
  lexeme (.keyword w)

/-- A name of a variable or a label. -/
def name : Plan Result String :=
  lexeme .name

/-- A part between two marks. -/
def between {α : Type} (opening closing : String) (e : Plan Result α) : Plan Result α := do
  mark opening
  let a ← e
  mark closing
  pure a

/-- Fields with commas between them, or nothing. -/
def fields {α : Type} (sep : String) (e : Plan Result α) : Plan Result (List (String × α)) :=
  optional [] do
    let r ← sepBy (do
      let label ← name
      mark sep
      let a ← e
      pure (label, a)) (mark ",")
    pure (r.1 :: r.2)

/-- What is taken out of a pair or a record. -/
def selector : Plan Result Selector := do
  mark "."
  choice (expected Description.selector)
    [do mark "1"; pure .first,
     do mark "2"; pure .second,
     Selector.label <$> name]

/-- An operator with one operand. -/
def unary (w : String) (build : Term → Term) : Plan Result Term := do
  keyword w
  let t ← rule simple
  pure (build t)

/-- An operator with two operands. -/
def binary (w : String) (build : Term → Term → Term) : Plan Result Term := do
  keyword w
  let t ← rule simple
  let u ← rule simple
  pure (build t u)

/-- What a rule does. -/
def plan : ∀ r : Rule, Plan Result r.Result
  | type => do
    let r ← sepBy (rule productType) (mark "->")
    pure (chainRight Ty.arrow r.1 r.2)
  | productType => do
    let r ← sepBy (rule atomicType) (mark "*")
    pure (chainRight Ty.prod r.1 r.2)
  | atomicType =>
    choice (expected Description.atomicType)
      [do keyword "Bool"; pure Ty.bool,
       do keyword "Nat"; pure Ty.nat,
       do keyword "String"; pure Ty.string,
       do keyword "List"; Ty.list <$> between "[" "]" (rule type),
       Ty.record <$> between "\x7b" "\x7d" (fields ":" (rule type)),
       Ty.named <$> lexeme .typeName,
       between "(" ")" (rule type)]
  | term =>
    afterGap <| choice (expected Description.term)
      [rule function, rule conditional, rule letRec, rule letIn, rule application]
  | function => do
    choice (expected Description.functionStart) [keyword "lambda", keyword "L"]
    let x ← name
    mark ":"
    let T ← rule type
    mark "."
    let t ← rule term
    pure (.lam x T t)
  | conditional => do
    keyword "if"
    let t ← rule term
    keyword "then"
    let u ← rule term
    keyword "else"
    let v ← rule term
    pure (.ite t u v)
  | letRec => do
    keyword "letrec"
    let f ← name
    mark ":"
    let T ← rule type
    mark "="
    let t ← rule term
    keyword "in"
    let u ← rule term
    pure (.letIn f (.fix (.lam f T t)) u)
  | letIn => do
    keyword "let"
    let x ← name
    mark "="
    let t ← rule term
    keyword "in"
    let u ← rule term
    pure (.letIn x t u)
  | application => do
    let t ← rule applicationHead
    let args ← many (rule simple)
    pure (args.foldl .app t)
  | applicationHead =>
    choice (expected Description.applicationHead)
      [unary "succ" .succ,
       unary "pred" .pred,
       unary "iszero" .isZero,
       unary "fix" .fix,
       unary "isnil" .isNil,
       unary "head" .head,
       unary "tail" .tail,
       binary "concat" .concat,
       binary "cons" .cons,
       rule simple]
  | simple => do
    let t ← rule atomic
    let selectors ← many selector
    pure (selectors.foldl Selector.apply t)
  | atomic =>
    afterGap <| choice (expected Description.atomic)
      [do keyword "true"; pure (.bool true),
       do keyword "false"; pure (.bool false),
       Term.numeral <$> lexeme .number,
       Term.string <$> lexeme .stringLiteral,
       do keyword "nil"; Term.nil <$> between "[" "]" (rule type),
       Term.record <$> between "\x7b" "\x7d" (fields "=" (rule term)),
       between "\x7b" "\x7d" do
         let t ← rule term
         mark ","
         let u ← rule term
         pure (.pair t u),
       Term.var <$> name,
       between "(" ")" (rule term)]

/-- The plans describe the parsers. -/
theorem parser_plan (r : Rule) (c : Cursor) : r.plan.parser parser c = r.parser c := by
  cases r with
  | type => exact (type_apply c).symm
  | term => exact (term_apply c).symm
  | _ => rfl

/-! ### Conditions -/

section Conditions

variable {early : Rule → Prop} {α : Type}

@[simp] theorem guarded_mark (s : String) : (mark s).Guarded early ↔ True := .rfl

@[simp] theorem guarded_keyword (w : String) : (keyword w).Guarded early ↔ True := .rfl

@[simp] theorem guarded_name : name.Guarded early ↔ True := .rfl

@[simp] theorem consumes_mark (s : String) : (mark s).Consumes ↔ s ≠ "" :=
  one_le_length_toList_iff s

@[simp] theorem consumes_keyword (w : String) : (keyword w).Consumes ↔ w ≠ "" :=
  one_le_length_toList_iff w

@[simp] theorem consumes_name : name.Consumes ↔ True :=
  iff_true_intro (Nat.le_refl 1)

theorem guarded_between {opening : String} (hopening : opening ≠ "") (closing : String)
    (e : Plan Result α) :
    (between opening closing e).Guarded early ↔ e.Guarded fun _ => True := by
  simp [between, hopening]

/-- In front of each part stands a label. -/
theorem guarded_fields (sep : String) (e : Plan Result α) :
    (fields sep e).Guarded early ↔ e.Guarded fun _ => True := by
  constructor
  · rintro ⟨⟨⟨-, hfield⟩, -⟩, -⟩
    obtain ⟨-, hpart⟩ := hfield ""
    exact (hpart ()).1.imp fun _ _ => trivial
  · intro he
    refine ⟨guarded_sepBy ?_ ?_ ?_, fun _ => trivial⟩
    · simp
    · simpa using he
    · simp

end Conditions

/-- Each rule uses only those with which it may open before it has read a character, and repeats
only what reads one. -/
theorem guarded_plan (r : Rule) : r.plan.Guarded fun r' => r' ∈ r.opens := by
  cases r with
  | type | productType =>
    exact ⟨guarded_sepBy trivial (List.mem_singleton_self _) (by simp), fun _ => trivial⟩
  | atomicType | atomic => simp [plan, guarded_between, guarded_fields]
  | term | function | conditional | letRec | letIn | application => simp [plan, opens]
  | applicationHead => simp [plan, opens, unary, binary]
  | simple => simp [plan, opens, selector]

theorem agree_rule (r : Rule) (n : Nat) : Parser.Agree 1 n r.parser r.parser := by
  have htype : Parser.Agree 0 n Grammar.type Grammar.type := (agree_type n).zero
  have hterm : Parser.Agree 0 n Grammar.term Grammar.term := (agree_term n).zero
  cases r with
  | type => exact agree_type n
  | productType => exact (agree_productType htype).pred
  | atomicType => exact (agree_atomicType htype).pred
  | term => exact agree_term n
  | function => exact (agree_function hterm).pred
  | conditional => exact (agree_conditional hterm).pred
  | letRec => exact (agree_letRec hterm).pred
  | letIn => exact (agree_letIn hterm).pred
  | application => exact (agree_application hterm).pred
  | applicationHead => exact (agree_applicationHead hterm).pred
  | simple => exact (agree_simple hterm).pred
  | atomic => exact (agree_atomic hterm).pred

end Rule

/-- The rules for types and terms, with their plans and parsers. -/
def rules [DigitLimit] : RuleSet Rule Rule.Result where
  plan := Rule.plan
  rules := Rule.parser
  parser_plan := Rule.parser_plan
  agree := Rule.agree_rule
  Opens r r' := r' ∈ r.opens
  wellFounded_opens :=
    Subrelation.wf (fun h => (Rule.height_lt_of_mem_opens h).1) (measure Rule.height).wf
  guarded := Rule.guarded_plan

/-! ## Whole texts -/

section Reading

variable [DigitLimit]

namespace Rule

open Plan

/-- A part that fills the text to its end. -/
def whole {α : Type} (e : Plan Result α) : Plan Result α := do
  let a ← e
  lexeme .endOfText
  pure a

/-- A command. -/
def command : Plan Result Command :=
  choice (expected Description.command)
    [whole do
       let X ← lexeme .typeName
       mark "="
       let T ← rule type
       pure (.abbreviate X T),
     whole do
       let x ← name
       mark "="
       let t ← rule term
       pure (.define x t),
     whole (Command.evaluate <$> rule term),
     whole (Command.showType <$> rule type)]

end Rule

end Reading

end Grammar

end TypedLambda
