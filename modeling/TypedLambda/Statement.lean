import TypedLambda.Command.Run
import TypedLambda.Grammar.Read

/-!
# Statements

A source text is a sequence of statements, each of which is the text of one command and ends with
two semicolons. Blank statements do not count.

## Main definitions

* `Statement.split`: the statements of a text
* `Statement.Error`: why a statement fails
* `Statement.run`: reads and carries out a statement
* `Statement.runAll`: all statements of a text, up to the first that fails
-/

namespace TypedLambda

namespace Statement

/-! ## Division into statements -/

/-- What ends a statement. -/
def terminator : List Char :=
  [';', ';']

/-- The pieces of a text between its terminators, found from left to right. -/
def pieces : List Char → List (List Char)
  | [] => [[]]
  | ';' :: ';' :: cs => [] :: pieces cs
  | c :: cs =>
    match pieces cs with
    | [] => [[c]]
    | p :: ps => (c :: p) :: ps

/-- The statements of a text: the pieces that are not blank. -/
def split (source : String) : List String :=
  ((pieces source.toList).filter fun p => !p.all Text.isBlank).map String.ofList

/-- Whether a text ends with a terminator, but for blanks. -/
def isTerminated (source : String) : Bool :=
  terminator.isSuffixOf (Text.trimEnd source.toList)

/-! ## Running statements -/

/-- Why a statement fails. -/
inductive Error where
  /-- It cannot be read. -/
  | read (e : ReadError)
  /-- Its command cannot be carried out. -/
  | fault (e : Fault)
deriving Repr, DecidableEq

variable [DigitLimit]

/-- Reads and carries out a statement. -/
def run (b : Bounds) (ctx : Context) (source : String) : Except Error Answer :=
  match Command.parse source with
  | .error e => .error (.read e)
  | .ok cmd =>
    match cmd.run b ctx with
    | .error e => .error (.fault e)
    | .ok answer => .ok answer

/-- Runs statements one after the other. The result has the lines shown and the last context. -/
def runEach (b : Bounds) : Context → List String → Except Error (List String × Context)
  | ctx, [] => .ok ([], ctx)
  | ctx, s :: rest =>
    match run b ctx s with
    | .error e => .error e
    | .ok answer =>
      match runEach b answer.ctx rest with
      | .error e => .error e
      | .ok (lines, last) => .ok (answer.line :: lines, last)

/-- Runs all statements of a text. -/
def runAll (b : Bounds) (ctx : Context) (source : String) :
    Except Error (List String × Context) :=
  runEach b ctx (split source)

end Statement

end TypedLambda
