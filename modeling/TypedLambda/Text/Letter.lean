/-!
# Character classes

The classes of characters of which words and blanks are made. Words are ASCII; what counts as a
blank is every character with the white space property, and four information separators beside it.

## Main definitions

* `Text.isNameChar`: the characters of a name after its first
* `Text.isBlank`: the characters that only divide tokens
* `Text.isGap`: the blanks that the grammar skips between tokens
-/

namespace TypedLambda

namespace Text

/-- A letter, a digit, an underscore or a prime. -/
def isNameChar (c : Char) : Bool :=
  c.isAlphanum || c = '_' || c = '\x27'

/-- A letter or an underscore, with which a word may start. -/
def isWordStart (c : Char) : Bool :=
  c.isAlpha || c = '_'

/-- The code points of blanks, as ranges with both ends included. -/
def blankRanges : List (Nat × Nat) :=
  [(0x9, 0xd), (0x1c, 0x20), (0x85, 0x85), (0xa0, 0xa0), (0x1680, 0x1680), (0x2000, 0x200a),
    (0x2028, 0x2029), (0x202f, 0x202f), (0x205f, 0x205f), (0x3000, 0x3000)]

/-- Whether a code point lies in one of the ranges. -/
def inRanges (ranges : List (Nat × Nat)) (c : Char) : Bool :=
  ranges.any fun r => r.1 ≤ c.toNat && c.toNat ≤ r.2

/-- A character that only divides tokens. -/
def isBlank (c : Char) : Bool :=
  inRanges blankRanges c

/-- A blank that the grammar skips in front of a token: a space, a tab or a line end. -/
def isGap (c : Char) : Bool :=
  c = ' ' || c = '\n' || c = '\t' || c = '\r'

/-- The text without the blanks at its end. -/
def trimEnd (cs : List Char) : List Char :=
  (cs.reverse.dropWhile isBlank).reverse

end Text

end TypedLambda
