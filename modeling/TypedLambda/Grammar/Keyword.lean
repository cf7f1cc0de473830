/-!
# Keywords

The words that the grammar keeps for itself.

## Main definitions

* `Grammar.keywords`: the keywords
-/

namespace TypedLambda

namespace Grammar

/-- The words that are not names. -/
def keywords : List String :=
  ["lambda", "L", "if", "then", "else", "true", "false", "succ", "pred", "iszero", "let", "letrec",
    "in", "fix", "concat", "nil", "cons", "isnil", "head", "tail", "Bool", "Nat", "String", "List"]

end Grammar

end TypedLambda
