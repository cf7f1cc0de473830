import TypedLambda.Statement

/-!
# Sessions

A session carries out statements one by one and writes lines about them: the reduction steps if
they are asked for, and then the answer or the reason of the failure. A statement that fails leaves
the context as it was. Texts whose brackets nest too deeply are refused, and so are terms and types
that are too high as trees. A session may also be interrupted when it is about to write one more
reduction step.

A number that is too long breaks the session off: nothing is written about it, and no statement is
carried out any more.

## Main definitions

* `Settings`: what holds for a whole session
* `Session`: the context reached, and how long until an interruption
* `Ending`: how the execution of statements ends
* `Session.execute`: carries out one statement
* `Session.runSource`: carries out the statements of a text up to the first failure
-/

namespace TypedLambda

/-! ## Brackets -/

namespace Token

/-- The greatest number of brackets open at once in a list of tokens, when `depth` are open at its
beginning. -/
def nesting : (depth : Nat) → List (List Char) → Nat
  | depth, [] => depth
  | depth, t :: ts =>
    if t ∈ [['('], ['['], ['{']] then nesting (depth + 1) ts
    else if t ∈ [[')'], [']'], ['}']] then max depth (nesting (depth - 1) ts)
    else nesting depth ts

end Token

/-! ## Failures -/

/-- How the execution of statements ends. -/
inductive Ending where
  /-- All of them have succeeded. -/
  | success
  /-- One has failed. -/
  | failure
  /-- A number that is too long breaks the session off. -/
  | brokenOff (e : Overlong)
deriving Repr, DecidableEq

/-- The line about a fault. -/
def Fault.line : Fault → String
  | typing e => "type error: " ++ e.message
  | tooDeep => "evaluation error: maximum recursion depth exceeded"
  | stopped => "interrupted"

namespace Statement

/-- The lines about a failure: one, but none when the session is broken off. -/
def Error.lines : Error → List String
  | read (.lexical e) => ["lexical error: " ++ e.message]
  | read (.grammar e) =>
    ["syntax error: " ++ e.reason ++ " (at char " ++ String.ofList (Nat.toDigits 10 e.pos) ++ ")"]
  | read (.overlong _) => []
  | fault e => [e.line]

/-- What a failure means for the session. -/
def Error.ending : Error → Ending
  | read (.overlong e) => .brokenOff e
  | _ => .failure

end Statement

/-! ## Sessions -/

/-- What holds for a whole session. -/
structure Settings where
  /-- Whether reduction steps are written. -/
  traced : Bool := false
  /-- The number of steps after which a reduction is given up. -/
  steps : Nat := 1000000000
  /-- The height of the terms and types that are worked on. -/
  depth : Nat := 1000
  /-- The number of brackets that may be open at once. -/
  nesting : Nat := 100
deriving Repr, DecidableEq

/-- The state of a session. -/
structure Session where
  /-- The context that the statements so far have left. -/
  ctx : Context := {}
  /-- How many reduction steps are still written before the session is interrupted, if it is. -/
  patience : Option Nat := none
deriving Repr, Inhabited

namespace Session

/-- What the next statement may use. -/
def bounds (cfg : Settings) (s : Session) : Bounds where
  steps :=
    match cfg.traced, s.patience with
    | true, some n => min n cfg.steps
    | _, _ => cfg.steps
  depth := some cfg.depth

variable [DigitLimit]

/-- The command that a statement denotes, unless its brackets nest too deeply. -/
def command (cfg : Settings) (source : String) : Except Statement.Error Command :=
  let scan := Token.scan source.toList
  if scan.error.isNone && cfg.nesting < Token.nesting 0 scan.tokens then
    .error (.fault .tooDeep)
  else
    match Command.parse source with
    | .error e => .error (.read e)
    | .ok cmd => .ok cmd

/-- What the execution of a statement gives. -/
structure Execution where
  /-- The lines written. -/
  written : List String
  /-- How it ends. -/
  ending : Ending
  /-- The state afterwards. -/
  session : Session
deriving Repr

/-- The line about a reduction step. -/
def traceLine (t : Term) : String :=
  "\t" ++ t.render

/-- Carries out one statement. -/
def execute (cfg : Settings) (s : Session) (source : String) : Execution :=
  match command cfg source with
  | .error e => ⟨e.lines, e.ending, s⟩
  | .ok cmd =>
    let b := s.bounds cfg
    let steps := if cfg.traced then (cmd.trace b s.ctx).map traceLine else []
    match cmd.run b s.ctx with
    | .error .stopped =>
      ⟨steps ++ [Fault.stopped.line], .failure, { s with patience := none }⟩
    | .error e =>
      ⟨steps ++ [e.line], .failure, { s with patience := s.patience.map (· - steps.length) }⟩
    | .ok answer =>
      ⟨steps ++ [answer.line], .success, ⟨answer.ctx, s.patience.map (· - steps.length)⟩⟩

/-- Carries out statements, also after a failure. The result has the lines written and the state
afterwards, unless the session is broken off. -/
def executeAll (cfg : Settings) : Session → List String → List String × Except Overlong Session
  | s, [] => ([], .ok s)
  | s, source :: rest =>
    let e := s.execute cfg source
    match e.ending with
    | .brokenOff number => (e.written, .error number)
    | _ =>
      let (lines, last) := executeAll cfg e.session rest
      (e.written ++ lines, last)

/-- Carries out statements up to the first failure. The result has the lines written and how this
ends. -/
def executeUntilFailure (cfg : Settings) : Session → List String → List String × Ending
  | _, [] => ([], .success)
  | s, source :: rest =>
    let e := s.execute cfg source
    match e.ending with
    | .success =>
      let (lines, ending) := executeUntilFailure cfg e.session rest
      (e.written ++ lines, ending)
    | ending => (e.written, ending)

/-- Carries out the statements of a text up to the first failure, from the empty context. -/
def runSource (cfg : Settings) (source : String) : List String × Ending :=
  executeUntilFailure cfg {} (Statement.split source)

end Session

end TypedLambda
