/-!
# Escapes in string literals

The content of a string literal is read from left to right. A backslash with one of the letters
`t`, `n`, `f`, `r` is a control character, `\0` is the null character, and two short hexadecimal
forms give the character of that code: `\x` with a digit and a `2`, and `\u` with a digit and
a `4`. In front of an octal digit and a `3` the backslash is dropped. All other characters, lone
backslashes included, stand for themselves.

## Main definitions

* `Text.unescape`: the string that the content of a literal denotes
-/

namespace TypedLambda

namespace Text

/-- The value of a hexadecimal digit. -/
def hexValue? (c : Char) : Option Nat :=
  if c.isDigit then some (c.toNat - '0'.toNat)
  else if 'a' ≤ c ∧ c ≤ 'f' then some (c.toNat - 'a'.toNat + 10)
  else if 'A' ≤ c ∧ c ≤ 'F' then some (c.toNat - 'A'.toNat + 10)
  else none

/-- The control character that a letter behind a backslash denotes. -/
def control? (c : Char) : Option Char :=
  if c = 't' then some '\t'
  else if c = 'n' then some '\n'
  else if c = 'f' then some '\x0c'
  else if c = 'r' then some '\r'
  else none

/-- Whether the character is an octal digit. -/
def isOctal (c : Char) : Bool :=
  '0' ≤ c && c ≤ '7'

/-- The character that `c` and the two characters behind it denote after a backslash, when they
are one of the hexadecimal forms. -/
def hexEscape? (c high low : Char) : Option Char :=
  if (c = 'x' ∧ low = '2') ∨ (c = 'u' ∧ low = '4') then
    (hexValue? high).map fun h => Char.ofNat (16 * h + (low.toNat - '0'.toNat))
  else none

/-- The string that the content of a literal denotes. -/
def unescape : List Char → List Char
  | [] => []
  | c :: cs =>
    if c = '\\' then
      match cs with
      | [] => [c]
      | d :: ds =>
        match control? d with
        | some e => e :: unescape ds
        | none =>
          if isOctal d ∧ ds.head? = some '3' then unescape (d :: ds)
          else if d = '0' then '\x00' :: unescape ds
          else
            match ds with
            | high :: low :: rest =>
              match hexEscape? d high low with
              | some e => e :: unescape rest
              | none => c :: unescape (d :: high :: low :: rest)
            | ds => c :: unescape (d :: ds)
    else c :: unescape cs

end Text

end TypedLambda
