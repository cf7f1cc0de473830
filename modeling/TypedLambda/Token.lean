import TypedLambda.Text.Letter
import TypedLambda.Text.Quoted

/-!
# Tokens

A text is divided from left to right into pieces: runs of blanks, string literals, words, numbers
and symbols. The pieces that are not blank are its tokens. A piece is as long as its class allows,
and a text whose beginning fits no class is in error there.

## Main definitions

* `Token.Class`, `Token.Piece`: the classes, and a piece of text with its class
* `Token.piece?`: the piece at the beginning of a text
* `Token.scan`: the tokens of a text, and the error behind them if there is one
* `LexicalError`: a character with which no piece starts, and its position
-/

namespace TypedLambda

/-- A character with which no piece of text can start. -/
structure LexicalError where
  /-- The character. -/
  char : Char
  /-- The number of characters in front of it. -/
  pos : Nat
deriving Repr, DecidableEq

/-- The error in words. -/
def LexicalError.message (e : LexicalError) : String :=
  "unexpected character " ++ String.ofList (Text.quoted e.char) ++ " at position " ++
    String.ofList (Nat.toDigits 10 e.pos)

namespace Token

/-- The classes of pieces. -/
inductive Class where
  /-- A run of blanks. -/
  | blank
  /-- A string literal with its quotes. -/
  | string
  /-- A word: a name or a keyword. -/
  | word
  /-- A run of digits. -/
  | number
  /-- An arrow or a single mark. -/
  | symbol
deriving Repr, DecidableEq

/-- A piece of text with its class. -/
structure Piece where
  /-- The class to which it belongs. -/
  cls : Class
  /-- Its characters. -/
  chars : List Char
deriving Repr, DecidableEq

/-- The characters that are symbols by themselves. -/
def marks : List Char :=
  ['(', ')', '.', ':', '=', ',', '*', '{', '}', '[', ']']

/-- The piece at the beginning of a text, and the rest of the text. -/
def piece? : List Char → Option (Piece × List Char)
  | [] => none
  | c :: cs =>
    if Text.isBlank c then
      some (⟨.blank, c :: cs.takeWhile Text.isBlank⟩, cs.dropWhile Text.isBlank)
    else if c = '"' then
      match cs.dropWhile (· ≠ '"') with
      | [] => none
      | quote :: rest => some (⟨.string, c :: cs.takeWhile (· ≠ '"') ++ [quote]⟩, rest)
    else if Text.isWordStart c then
      some (⟨.word, c :: cs.takeWhile Text.isNameChar⟩, cs.dropWhile Text.isNameChar)
    else if c.isDigit then
      some (⟨.number, c :: cs.takeWhile Char.isDigit⟩, cs.dropWhile Char.isDigit)
    else if c ∈ marks then some (⟨.symbol, [c]⟩, cs)
    else if c = '-' ∧ cs.head? = some '>' then some (⟨.symbol, ['-', '>']⟩, cs.tail)
    else none

/-- What scanning a text gives. -/
structure Scan where
  /-- The tokens, up to the error if there is one. -/
  tokens : List (List Char) := []
  /-- The error that ended the scan. -/
  error : Option LexicalError := none
deriving Repr, DecidableEq

/-- The scan with a piece put in front. -/
def Scan.push (p : Piece) (s : Scan) : Scan :=
  if p.cls = .blank then s else { s with tokens := p.chars :: s.tokens }

/-- Scans a text that starts at the given position, into at most `bound` pieces. -/
def scanWithin : (bound pos : Nat) → List Char → Scan
  | _, _, [] => {}
  | 0, _, _ :: _ => {}
  | bound + 1, pos, c :: cs =>
    match piece? (c :: cs) with
    | none => { error := some ⟨c, pos⟩ }
    | some (p, rest) => (scanWithin bound (pos + p.chars.length) rest).push p

/-- The tokens of a text. A piece has at least one character, so there are no more pieces than
characters. -/
def scan (text : List Char) : Scan :=
  scanWithin text.length 0 text

/-- Whether the text can be divided into pieces to its end; if not, the first error. -/
def check (text : List Char) : Except LexicalError Unit :=
  match (scan text).error with
  | none => pure ()
  | some e => throw e

end Token

end TypedLambda
