import TypedLambda.Grammar.Description
import TypedLambda.Parser.Basic
import TypedLambda.Text.Escape

/-!
# Lexemes

The smallest parts of the grammar: marks, keywords, names, numbers and string literals. Each skips
the gap in front of it. There is no token stream between the text and the grammar, so lexemes may
touch: `0true` is a number and a name, because a keyword needs a character in front of it that
cannot belong to a name.

## Main definitions

* `Grammar.mark`: a fixed sequence of characters
* `Grammar.keyword`: a word that is not a name
* `Grammar.name`, `Grammar.typeName`: names of variables and labels, and names of types
* `Grammar.number`, `Grammar.stringLiteral`: constants
* `Grammar.endOfText`: the end
-/

namespace TypedLambda

namespace Grammar

/-! ## Marks and keywords -/

/-- Reads exactly the given characters. -/
def mark (s : String) : Parser Unit :=
  fun c =>
    let c' := c.skipGap
    if s.toList.isPrefixOf c'.rest then .ok ((), c'.advance s.toList.length)
    else .error (.failure ⟨c'.pos, expected (Description.quoted s)⟩)

/-- Reads a keyword. No character of a name may stand right in front of it or right behind it. -/
def keyword (w : String) : Parser Unit :=
  fun c =>
    let c' := c.skipGap
    let next := c'.advance w.toList.length
    let reason := expected ("Keyword " ++ Description.quoted w)
    if !w.toList.isPrefixOf c'.rest then .error (.failure ⟨c'.pos, reason⟩)
    else if c'.prev.any Text.isNameChar then
      .error (.failure
        ⟨c'.pos - 1, reason ++ ", keyword was immediately preceded by keyword character"⟩)
    else if next.rest.head?.any Text.isNameChar then
      .error (.failure ⟨next.pos, reason ++ ", was immediately followed by keyword character"⟩)
    else .ok ((), next)

/-- Whether one of the keywords can be read here. -/
def atKeyword (c : Cursor) : Bool :=
  keywords.any fun w => (keyword w c).isOk

/-! ## Names -/

/-- Reads a character that satisfies `first` and all characters of names behind it. -/
def word (reason : String) (first : Char → Bool) : Parser String :=
  fun c =>
    let c' := c.skipGap
    match c'.rest with
    | x :: rest =>
      if first x then
        let cs := x :: rest.takeWhile Text.isNameChar
        .ok (String.ofList cs, c'.advance cs.length)
      else .error (.failure ⟨c'.pos, reason⟩)
    | [] => .error (.failure ⟨c'.pos, reason⟩)

/-- Fails in front of a keyword, and reads nothing. -/
def notKeyword : Parser Unit :=
  fun c =>
    if atKeyword c then
      .error (.failure ⟨c.pos, "Found unwanted token, " ++ Description.keyword⟩)
    else .ok ((), c)

/-- A lower-case letter or an underscore. -/
def isNameStart (c : Char) : Bool :=
  c.isLower || c = '_'

/-- Reads the name of a variable or a label: a word that starts in lower case and is no keyword. -/
def name : Parser String := do
  notKeyword
  word (expected (Description.word "_a-z")) isNameStart

/-- Reads the name of a type: a word that starts in upper case and is no keyword. -/
def typeName : Parser String := do
  notKeyword
  word (expected (Description.word "A-Z")) Char.isUpper

/-! ## Constants -/

/-- The number that decimal digits denote. -/
def valueOfDigits (digits : List Char) : Nat :=
  digits.foldl (fun n d => 10 * n + (d.toNat - '0'.toNat)) 0

/-- Reads a number in decimal, which may start with zeros. All digits that stand there belong to it,
and it is refused when these are too many. -/
def number [DigitLimit] : Parser Nat :=
  fun c =>
    let c' := c.skipGap
    let digits := c'.rest.takeWhile Char.isDigit
    if digits.isEmpty then .error (.failure ⟨c'.pos, expected Description.number⟩)
    else if DigitLimit.admits digits.length then
      .ok (valueOfDigits digits, c'.advance digits.length)
    else .error (.overlong ⟨digits.length⟩)

/-- A character that may stand in a string literal. -/
def isLiteralChar (c : Char) : Bool :=
  c ≠ '"' && c ≠ '\n' && c ≠ '\r'

/-- Reads a string literal: a quote, characters other than quotes and line ends, and a quote. -/
def stringLiteral : Parser String :=
  fun c =>
    let c' := c.skipGap
    let failure : Failure := ⟨c'.pos, expected Description.stringLiteral⟩
    match c'.rest with
    | '"' :: rest =>
      let content := rest.takeWhile isLiteralChar
      match rest.dropWhile isLiteralChar with
      | '"' :: _ => .ok (String.ofList (Text.unescape content), c'.advance (content.length + 2))
      | _ => .error (.failure failure)
    | _ => .error (.failure failure)

/-- Succeeds at the end of the text, behind a last gap. -/
def endOfText : Parser Unit :=
  fun c =>
    let c' := c.skipGap
    if c'.rest.isEmpty then .ok ((), c')
    else .error (.failure ⟨c'.pos, expected "end of text"⟩)

end Grammar

end TypedLambda
