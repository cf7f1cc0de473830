/-!
# Lines

A line may end with a line feed, a carriage return, or both in this order. The last line of a text
needs no end.

## Main definitions

* `Text.unifyLineEnds`: a text with line feeds for all line ends
* `Text.lines`: the lines of a text
-/

namespace TypedLambda

namespace Text

/-- The text with a line feed for every line end. -/
def unifyLineEnds : List Char → List Char
  | [] => []
  | '\r' :: '\n' :: cs => '\n' :: unifyLineEnds cs
  | '\r' :: cs => '\n' :: unifyLineEnds cs
  | c :: cs => c :: unifyLineEnds cs

/-- The parts of a text that end with line feeds, and the last part unless it is empty. -/
def lines : List Char → List (List Char)
  | [] => []
  | c :: cs =>
    if c = '\n' then [] :: lines cs
    else
      match lines cs with
      | [] => [[c]]
      | l :: ls => (c :: l) :: ls

end Text

end TypedLambda
