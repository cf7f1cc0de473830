import TypedLambda.Grammar.Lexeme
import TypedLambda.Ty.Basic

/-!
# The grammar of types

A type is a chain of products with arrows between them, and a product is a chain of atomic types
with stars between them; both chains associate to the right.

## Main definitions

* `Grammar.atomicType`, `Grammar.productType`: the rules, over a parser for types in brackets
* `Grammar.type`: types
-/

namespace TypedLambda

namespace Grammar

/-- The items of a chain joined from the right. -/
def chainRight {α : Type} (join : α → α → α) : α → List α → α
  | a, [] => a
  | a, b :: bs => join a (chainRight join b bs)

/-- Reads an opening mark, a part and a closing mark. -/
def between {α : Type} (opening closing : String) (p : Parser α) : Parser α := do
  mark opening
  let a ← p
  mark closing
  pure a

/-- Reads fields with commas between them, or nothing; a field is a label, a mark and a part. -/
def fields {α : Type} (sep : String) (p : Parser α) : Parser (List (String × α)) :=
  Parser.optional [] do
    let (f, fs) ← Parser.sepBy (do
      let label ← name
      mark sep
      let a ← p
      pure (label, a)) (mark ",")
    pure (f :: fs)

/-- Reads an atomic type, given a parser for the types inside it. -/
def atomicType (type : Parser Ty) : Parser Ty :=
  Parser.choice (expected Description.atomicType)
    [do keyword "Bool"; pure Ty.bool,
     do keyword "Nat"; pure Ty.nat,
     do keyword "String"; pure Ty.string,
     do keyword "List"; Ty.list <$> between "[" "]" type,
     Ty.record <$> between "\x7b" "\x7d" (fields ":" type),
     Ty.named <$> typeName,
     between "(" ")" type]

/-- Reads a product of atomic types. -/
def productType (type : Parser Ty) : Parser Ty := do
  let (A, As) ← Parser.sepBy (atomicType type) (mark "*")
  pure (chainRight Ty.prod A As)

/-- Reads a type, given a parser for the types inside it. -/
def typeRule (type : Parser Ty) : Parser Ty := do
  let (A, As) ← Parser.sepBy (productType type) (mark "->")
  pure (chainRight Ty.arrow A As)

/-- Reads a type. -/
def type : Parser Ty :=
  Parser.fix typeRule

end Grammar

end TypedLambda
