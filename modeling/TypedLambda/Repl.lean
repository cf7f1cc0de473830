import TypedLambda.Session

/-!
# Interactive sessions

An interactive session prompts for lines and collects them until they end with a terminator; then
it carries out the statements collected. At the end of the input it says good-bye, and what has not
been terminated by then is forgotten. A session that is broken off ends at once, without a word.

## Main definitions

* `Repl`: a session with the lines that are not yet terminated
* `Repl.feed`: takes in a line
* `Repl.interact`: a whole interaction, as prompts and lines written
-/

namespace TypedLambda

/-- An interactive session. -/
structure Repl where
  /-- The session so far. -/
  session : Session := {}
  /-- The lines that wait for a terminator. -/
  pending : Option String := none
deriving Repr, Inhabited

namespace Repl

/-- The line written at the beginning. -/
def banner : String :=
  "Evaluator of lambda expressions..."

/-- The line written at the end. -/
def farewell : String :=
  "...bye!!!"

/-- The prompt: it is blank while lines wait for a terminator. -/
def prompt (r : Repl) : String :=
  if r.pending.isNone then ">> " else "   "

variable [DigitLimit]

/-- Takes in a line. The result has the lines written about the statements that it completes, and
what comes next, unless the session is broken off. -/
def feed (cfg : Settings) (r : Repl) (line : String) : List String × Except Overlong Repl :=
  let buffer :=
    match r.pending with
    | none => line
    | some lines => lines ++ "\n" ++ line
  if Statement.isTerminated buffer then
    let (written, last) := r.session.executeAll cfg (Statement.split buffer)
    (written, last.map fun session => ⟨session, none⟩)
  else ([], .ok { r with pending := some buffer })

/-- What happens in an interaction. -/
inductive Event where
  /-- A line is asked for. -/
  | prompt (text : String)
  /-- A line is written. -/
  | write (line : String)
deriving Repr, DecidableEq

/-- An interaction over the given lines, without the banner. -/
def interactFrom (cfg : Settings) : Repl → List String → List Event × Except Overlong Context
  | r, [] => ([.prompt r.prompt, .write farewell], .ok r.session.ctx)
  | r, line :: rest =>
    match r.feed cfg line with
    | (written, .error number) => (.prompt r.prompt :: written.map .write, .error number)
    | (written, .ok next) =>
      let (events, ctx) := interactFrom cfg next rest
      (.prompt r.prompt :: written.map .write ++ events, ctx)

/-- A whole interaction over the given lines: what happens, and the last context, unless the session
is broken off. -/
def interact (cfg : Settings) (s : Session) (lines : List String) :
    List Event × Except Overlong Context :=
  let (events, ctx) := interactFrom cfg { session := s } lines
  (.write banner :: events, ctx)

/-- What an event puts on the screen. -/
def Event.text : Event → String
  | prompt text => text
  | write line => line ++ "\n"

end Repl

end TypedLambda
