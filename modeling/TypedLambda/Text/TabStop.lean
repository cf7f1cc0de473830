/-!
# Tab stops

A tab advances to the next column that is a multiple of eight. Columns are counted from the last
line end; every other character is one column wide.

## Main definitions

* `Text.expandTabs`: a text with spaces for its tabs
-/

namespace TypedLambda

namespace Text

/-- The distance between two tab stops. -/
def tabWidth : Nat :=
  8

/-- The text with every tab replaced by spaces up to the next tab stop, where `column` is the
column of its first character. -/
def expandTabsFrom : (column : Nat) → List Char → List Char
  | _, [] => []
  | column, c :: cs =>
    if c = '\t' then
      List.replicate (tabWidth - column % tabWidth) ' ' ++
        expandTabsFrom (column + (tabWidth - column % tabWidth)) cs
    else c :: expandTabsFrom (if c = '\n' ∨ c = '\r' then 0 else column + 1) cs

/-- The text with every tab replaced by spaces up to the next tab stop. -/
def expandTabs (cs : List Char) : List Char :=
  expandTabsFrom 0 cs

end Text

end TypedLambda
