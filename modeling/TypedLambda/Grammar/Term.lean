import TypedLambda.Grammar.Ty
import TypedLambda.Term.Basic

/-!
# The grammar of terms

Functions, conditionals and `let` reach as far to the right as possible. Below them stand
applications, which associate to the left and may start with an operator and its operands; below
these stand projections, and at the bottom constants, names, brackets and braces.

`letrec f : T = t in u` is short for `let f = fix (lambda f:T. t) in u`.

## Main definitions

* `Grammar.atomic`, `Grammar.simple`, `Grammar.application`: the rules, over a parser for the terms
  inside them
* `Grammar.term`: terms
-/

namespace TypedLambda

namespace Grammar

variable [DigitLimit]

/-! ## Atoms and projections -/

/-- Reads an atomic term, given a parser for the terms inside it. -/
def atomic (term : Parser Term) : Parser Term :=
  Parser.afterGap <| Parser.choice (expected Description.atomic)
    [do keyword "true"; pure (.bool true),
     do keyword "false"; pure (.bool false),
     Term.numeral <$> number,
     Term.string <$> stringLiteral,
     do keyword "nil"; Term.nil <$> between "[" "]" type,
     Term.record <$> between "\x7b" "\x7d" (fields "=" term),
     between "\x7b" "\x7d" do
       let t ← term
       mark ","
       let u ← term
       pure (.pair t u),
     Term.var <$> name,
     between "(" ")" term]

/-- What is taken out of a pair or a record. -/
inductive Selector where
  /-- The first component of a pair. -/
  | first
  /-- The second component of a pair. -/
  | second
  /-- The field of that label. -/
  | label (l : String)
deriving Repr, DecidableEq

/-- The term with a selector behind it. -/
def Selector.apply (t : Term) : Selector → Term
  | first => .fst t
  | second => .snd t
  | label l => .proj t l

/-- Reads a point and what is taken. -/
def selector : Parser Selector := do
  mark "."
  Parser.choice (expected Description.selector)
    [do mark "1"; pure .first,
     do mark "2"; pure .second,
     Selector.label <$> name]

/-- Reads an atomic term with selectors behind it. -/
def simple (term : Parser Term) : Parser Term := do
  let t ← atomic term
  let selectors ← Parser.many selector
  pure (selectors.foldl Selector.apply t)

/-! ## Applications -/

/-- Reads an operator with one operand. -/
def unary (term : Parser Term) (w : String) (build : Term → Term) : Parser Term := do
  keyword w
  let t ← simple term
  pure (build t)

/-- Reads an operator with two operands. -/
def binary (term : Parser Term) (w : String) (build : Term → Term → Term) : Parser Term := do
  keyword w
  let t ← simple term
  let u ← simple term
  pure (build t u)

/-- Reads the first part of an application. -/
def applicationHead (term : Parser Term) : Parser Term :=
  Parser.choice (expected Description.applicationHead)
    [unary term "succ" .succ,
     unary term "pred" .pred,
     unary term "iszero" .isZero,
     unary term "fix" .fix,
     unary term "isnil" .isNil,
     unary term "head" .head,
     unary term "tail" .tail,
     binary term "concat" .concat,
     binary term "cons" .cons,
     simple term]

/-- Reads a term and the arguments behind it. -/
def application (term : Parser Term) : Parser Term := do
  let t ← applicationHead term
  let args ← Parser.many (simple term)
  pure (args.foldl .app t)

/-! ## Terms -/

/-- Reads a function. -/
def function (term : Parser Term) : Parser Term := do
  Parser.choice (expected Description.functionStart)
    [keyword "lambda", keyword "L"]
  let x ← name
  mark ":"
  let T ← type
  mark "."
  let t ← term
  pure (.lam x T t)

/-- Reads a conditional. -/
def conditional (term : Parser Term) : Parser Term := do
  keyword "if"
  let t ← term
  keyword "then"
  let u ← term
  keyword "else"
  let v ← term
  pure (.ite t u v)

/-- Reads a recursive definition inside a term. -/
def letRec (term : Parser Term) : Parser Term := do
  keyword "letrec"
  let f ← name
  mark ":"
  let T ← type
  mark "="
  let t ← term
  keyword "in"
  let u ← term
  pure (.letIn f (.fix (.lam f T t)) u)

/-- Reads a definition inside a term. -/
def letIn (term : Parser Term) : Parser Term := do
  keyword "let"
  let x ← name
  mark "="
  let t ← term
  keyword "in"
  let u ← term
  pure (.letIn x t u)

/-- Reads a term, given a parser for the terms inside it. -/
def termRule (term : Parser Term) : Parser Term :=
  Parser.afterGap <| Parser.choice (expected Description.term)
    [function term, conditional term, letRec term, letIn term, application term]

/-- Reads a term. -/
def term : Parser Term :=
  Parser.fix termRule

end Grammar

end TypedLambda
