/-!
# Pieces of written text

Text is put together as a list of characters. This module holds the pieces that the printers of
types and terms share: parentheses that stand only where they are needed.

## Main definitions

* `Text.parenthesized`: a text with or without parentheses around it
-/

namespace TypedLambda

namespace Text

/-- `cs` in parentheses when `wrap` holds, and bare otherwise. -/
def parenthesized (wrap : Bool) (cs : List Char) : List Char :=
  if wrap then '(' :: cs ++ [')'] else cs

@[simp] theorem parenthesized_true (cs : List Char) :
    parenthesized true cs = '(' :: cs ++ [')'] := rfl

@[simp] theorem parenthesized_false (cs : List Char) : parenthesized false cs = cs := rfl

end Text

end TypedLambda
