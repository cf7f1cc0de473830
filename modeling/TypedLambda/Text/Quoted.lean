import TypedLambda.Text.Letter

/-!
# Quoted characters

How a message shows a character: between single quotes, except that the single quote itself stands
between double quotes. A backslash is doubled. A character without a shape of its own is shown by
its code: two hexadecimal digits below 256, four below 65536, and eight above.

## Main definitions

* `Text.isShapeless`: the characters that are shown by their code
* `Text.quoted`: the character as a message shows it
-/

namespace TypedLambda

namespace Text

/-- Control and format characters, separators, private use characters and noncharacters, as ranges
of code points with both ends included. -/
def shapelessRanges : List (Nat × Nat) :=
  [(0x0, 0x1f), (0x7f, 0xa0), (0xad, 0xad), (0x600, 0x605), (0x61c, 0x61c), (0x6dd, 0x6dd),
    (0x70f, 0x70f), (0x890, 0x891), (0x8e2, 0x8e2), (0x1680, 0x1680), (0x180e, 0x180e),
    (0x2000, 0x200f), (0x2028, 0x202f), (0x205f, 0x206f), (0x3000, 0x3000), (0xe000, 0xf8ff),
    (0xfdd0, 0xfdef), (0xfeff, 0xfeff), (0xfff0, 0xfffb), (0xfffe, 0xffff), (0x110bd, 0x110bd),
    (0x110cd, 0x110cd), (0x13430, 0x13438), (0x1bca0, 0x1bca3), (0x1d173, 0x1d17a),
    (0x1fffe, 0x1ffff), (0x2fffe, 0x2ffff), (0x3fffe, 0xe00ff), (0xe01f0, 0x10ffff)]

/-- A character without a shape of its own. -/
def isShapeless (c : Char) : Bool :=
  inRanges shapelessRanges c

/-- The number in hexadecimal, with zeros in front up to the given width. -/
def hex (width n : Nat) : List Char :=
  let digits := Nat.toDigits 16 n
  List.replicate (width - digits.length) '0' ++ digits

/-- The code of a character behind a backslash. -/
def codeOf (c : Char) : List Char :=
  if c.toNat < 0x100 then '\\' :: 'x' :: hex 2 c.toNat
  else if c.toNat < 0x10000 then '\\' :: 'u' :: hex 4 c.toNat
  else '\\' :: 'U' :: hex 8 c.toNat

/-- The character as a message shows it. -/
def quoted (c : Char) : List Char :=
  if c = '\x27' then ['"', c, '"']
  else if c = '\\' then ['\x27', c, c, '\x27']
  else if isShapeless c then '\x27' :: codeOf c ++ ['\x27']
  else ['\x27', c, '\x27']

end Text

end TypedLambda
