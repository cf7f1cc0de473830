import TypedLambda.Repl
import TypedLambda.Text.Line

/-!
# The command line

The program runs the statements of a file, or an interactive session when no file is named. Options
may stand anywhere in front of a `--`; long options may be shortened as long as they are clear, and
short ones may be joined.

## Main definitions

* `CommandLine.Request`: what the arguments ask for
* `CommandLine.parse`: the request of a list of arguments
* `CommandLine.run`: all that the program does, for given files and a given standard input
-/

namespace TypedLambda

namespace CommandLine

/-! ## Options -/

/-- The options. -/
inductive Flag where
  /-- Show a help text and do nothing else. -/
  | help
  /-- Write every reduction step. -/
  | trace
deriving Repr, DecidableEq

/-- The option of a single letter. -/
def Flag.ofLetter? (c : Char) : Option Flag :=
  if c = 'h' then some .help
  else if c = 't' then some .trace
  else none

/-- The long names of the options. -/
def longNames : List (String × Flag) :=
  [("--help", .help), ("--trace", .trace)]

/-- The kinds of arguments. -/
inductive Argument where
  /-- The name of a file. -/
  | file
  /-- Options, and whether something that is no option was joined to them. -/
  | flags (fs : List Flag) (surplus : Bool)
  /-- The mark behind which all arguments are names of files. -/
  | separator
  /-- An option that does not exist. -/
  | unknown
  /-- An option with something that does not belong to it. -/
  | malformed
  /-- The beginning of several options. -/
  | ambiguous
deriving Repr, DecidableEq

/-- Whether an argument that starts with a dash looks like a negative number. -/
def isNegativeNumber (digits : List Char) : Bool :=
  let whole := digits.takeWhile Char.isDigit
  match digits.dropWhile Char.isDigit with
  | [] => !whole.isEmpty
  | '.' :: fraction => !fraction.isEmpty && fraction.all Char.isDigit
  | _ => false

/-- An argument that starts with a dash and is the beginning of no option. -/
def classifyUnmatched (body : List Char) : Argument :=
  if isNegativeNumber body || body.contains ' ' then .file else .unknown

/-- The options that are joined behind a dash, up to the first letter that is none, and whether
there is such a letter. A dash or an equals sign must not stand behind an option. -/
def joinedFlags? : List Char → Option (List Flag × Bool)
  | [] => some ([], false)
  | c :: cs =>
    if c = '-' ∨ c = '=' then none
    else
      match Flag.ofLetter? c with
      | some f => (joinedFlags? cs).map fun r => (f :: r.1, r.2)
      | none => some ([], true)

/-- An argument that starts with one dash and the letter of an option. -/
def classifyShort (letters : List Char) : Argument :=
  match joinedFlags? letters with
  | some (fs, surplus) => .flags fs surplus
  | none => .malformed

/-- An argument that starts with two dashes. -/
def classifyLong (arg : List Char) : Argument :=
  let name := arg.takeWhile (· ≠ '=')
  let hasValue := arg.contains '='
  match longNames.filter fun option => name.isPrefixOf option.1.toList with
  | [] => classifyUnmatched arg.tail
  | [(_, f)] => if hasValue then .malformed else .flags [f] false
  | _ => .ambiguous

/-- The kind of an argument that stands in front of every separator. -/
def classify (arg : List Char) : Argument :=
  match arg with
  | ['-', '-'] => .separator
  | '-' :: '-' :: _ => classifyLong arg
  | ['-'] => .file
  | '-' :: c :: rest =>
    match Flag.ofLetter? c with
    | none => classifyUnmatched (c :: rest)
    | some _ => classifyShort (c :: rest)
  | _ => .file

/-! ## Requests -/

/-- What the arguments ask for. -/
inductive Request where
  /-- To show the help text. -/
  | help
  /-- Nothing that can be done. -/
  | invalid
  /-- To run a file, or an interactive session. -/
  | run (file : Option String) (traced : Bool)
deriving Repr, DecidableEq

/-- What is known of the arguments read so far. -/
structure Progress where
  /-- The file that was named. -/
  file : Option String := none
  /-- Whether the last argument named that file. -/
  atFile : Bool := false
  /-- Whether reduction steps are asked for. -/
  traced : Bool := false
  /-- Whether there was an argument that has no place. -/
  surplus : Bool := false
deriving Repr, DecidableEq

/-- The request when all arguments have been read. -/
def Progress.finish (p : Progress) : Request :=
  if p.surplus then .invalid else .run p.file p.traced

/-- The request when a separator and the given arguments are left. -/
def Progress.finishFiles (p : Progress) : List String → Request
  | [] => if p.file.isNone || p.atFile then p.finish else .invalid
  | [file] => if p.file.isNone then { p with file := some file }.finish else .invalid
  | _ => .invalid

/-- The request of the arguments that are left. Help is given as soon as it is asked for; a surplus
argument counts only at the end. -/
def parseFrom (p : Progress) : List String → Request
  | [] => p.finish
  | arg :: rest =>
    match classify arg.toList with
    | .separator => p.finishFiles rest
    | .file =>
      if p.file.isNone then parseFrom { p with file := some arg, atFile := true } rest
      else parseFrom { p with atFile := false, surplus := true } rest
    | .flags fs surplus =>
      if .help ∈ fs then .help
      else
        parseFrom { p with atFile := false, traced := true, surplus := p.surplus || surplus } rest
    | .unknown => parseFrom { p with atFile := false, surplus := true } rest
    | .malformed | .ambiguous => .invalid

/-- What a list of arguments asks for. An ambiguous option spoils all of it. -/
def parse (args : List String) : Request :=
  let options := args.takeWhile fun arg => classify arg.toList ≠ .separator
  if options.any fun arg => classify arg.toList = .ambiguous then .invalid else parseFrom {} args

/-! ## The program -/

/-- The help text. -/
def helpText : String :=
  "usage: stlc [-h] [-t] [file]\n" ++
  "\n" ++
  "Interactive evaluator for the simply-typed lambda calculus. Statements end\n" ++
  "with \";;\" and may span several lines.\n" ++
  "\n" ++
  "positional arguments:\n" ++
  "  file         file of ';;'-terminated statements (default: REPL)\n" ++
  "\n" ++
  "options:\n" ++
  "  -h, --help   show this help message and exit\n" ++
  "  -t, --trace  print every reduction step\n"

/-- What the program leaves behind. -/
inductive Exit where
  /-- A text on standard output, and an exit status. -/
  | done (output : String) (status : Nat)
  /-- There is no such file. -/
  | missing (file : String)
  /-- A text on standard output, and then a number that is too long. -/
  | brokenOff (output : String) (e : Overlong)
deriving Repr, DecidableEq

/-- The exit status. -/
def Exit.status : Exit → Nat
  | done _ status => status
  | missing _ | brokenOff _ _ => 1

/-- A text with a line end behind every line. -/
def unlines (lines : List String) : String :=
  String.join (lines.map (· ++ "\n"))

/-- The lines of an input. -/
def inputLines (input : String) : List String :=
  (Text.lines (Text.unifyLineEnds input.toList)).map String.ofList

variable [DigitLimit]

/-- Runs the content of a file. -/
def runContent (cfg : Settings) (content : String) : Exit :=
  match Session.runSource cfg (String.ofList (Text.unifyLineEnds content.toList)) with
  | (lines, .success) => .done (unlines lines) 0
  | (lines, .failure) => .done (unlines lines) 1
  | (lines, .brokenOff e) => .brokenOff (unlines lines) e

/-- Runs an interactive session over the given input. -/
def runInput (cfg : Settings) (input : String) : Exit :=
  let (events, last) := Repl.interact cfg {} (inputLines input)
  let output := String.join (events.map Repl.Event.text)
  match last with
  | .ok _ => .done output 0
  | .error e => .brokenOff output e

/-- All that the program does, where `files` has the contents of files and `input` is the standard
input. -/
def run (files : String → Option String) (input : String) (args : List String) : Exit :=
  match parse args with
  | .help => .done helpText 0
  | .invalid => .done "" 2
  | .run none traced => runInput { traced } input
  | .run (some file) traced =>
    match files file with
    | none => .missing file
    | some content => runContent { traced } content

end CommandLine

end TypedLambda
