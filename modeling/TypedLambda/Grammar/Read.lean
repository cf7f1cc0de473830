import TypedLambda.Grammar.Command
import TypedLambda.Text.TabStop
import TypedLambda.Token

/-!
# Reading source text

A source text is checked for characters that belong to no token, its tabs are expanded, and then
the grammar is applied to all of it. Positions of lexical errors count in the text as given,
positions of grammar errors in the text with expanded tabs.

## Main definitions

* `ReadError`: why a text cannot be read
* `Ty.parse`, `Term.parse`, `Command.parse`: what a text denotes
-/

namespace TypedLambda

/-- Why a text cannot be read. -/
inductive ReadError where
  /-- A character belongs to no token. -/
  | lexical (e : LexicalError)
  /-- The grammar does not admit the text. -/
  | grammar (e : Failure)
  /-- A number is too long. -/
  | overlong (e : Overlong)
deriving Repr, DecidableEq

namespace Grammar

/-- What the rule reads from a whole source text. -/
def read {α : Type} (rule : Parser α) (source : List Char) : Except ReadError α :=
  match Token.check source with
  | .error e => .error (.lexical e)
  | .ok _ =>
    match whole rule (Cursor.start (Text.expandTabs source)) with
    | .ok (a, _) => .ok a
    | .error (.failure e) => .error (.grammar e)
    | .error (.overlong e) => .error (.overlong e)

end Grammar

/-- The type that a text denotes. -/
def Ty.parse (source : String) : Except ReadError Ty :=
  Grammar.read Grammar.type source.toList

variable [DigitLimit]

/-- The term that a text denotes. -/
def Term.parse (source : String) : Except ReadError Term :=
  Grammar.read Grammar.term source.toList

/-- The command that a text denotes. -/
def Command.parse (source : String) : Except ReadError Command :=
  Grammar.read Grammar.command source.toList

end TypedLambda
