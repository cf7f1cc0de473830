import TypedLambda.CommandLine

/-!
# The program

The outer layer of the program: it reads files and lines, and prints. What it prints is decided by
`TypedLambda.CommandLine` and `TypedLambda.Repl`.

## Main definitions

* `main`: the program
-/

namespace TypedLambda

namespace Main

/-- Prints what is left to be printed, and gives the exit status. -/
def leave (e : CommandLine.Exit) : IO UInt32 := do
  match e with
  | .done output _ => IO.print output
  | .missing file => IO.eprintln ("no such file: " ++ file)
  | .brokenOff output number =>
    IO.print output
    IO.eprintln ("number of " ++ toString number.digits ++ " digits")
  return UInt32.ofNat e.status

/-- Reads lines until the input ends, and answers each. The lines in `queue` have been read but not
been answered. -/
partial def interact (cfg : Settings) (r : Repl) (queue : List String) : IO UInt32 := do
  let stdout ← IO.getStdout
  stdout.putStr r.prompt
  stdout.flush
  let lines ← if queue.isEmpty then
      CommandLine.inputLines <$> (← IO.getStdin).getLine
    else
      pure queue
  match lines with
  | [] =>
    stdout.putStrLn Repl.farewell
    return 0
  | line :: rest =>
    let (written, next) := r.feed cfg line
    written.forM stdout.putStrLn
    match next with
    | .ok next => interact cfg next rest
    | .error number => leave (.brokenOff "" number)

/-- Runs a file and gives the exit status. -/
def runFile (cfg : Settings) (file : String) : IO UInt32 := do
  leave (CommandLine.runContent cfg (← IO.FS.readFile file))

end Main

end TypedLambda

open TypedLambda in
/-- Runs a file of statements, or an interactive session. -/
def main (args : List String) : IO UInt32 := do
  match CommandLine.parse args with
  | .help =>
    IO.print CommandLine.helpText
    return 0
  | .invalid =>
    IO.eprintln "usage: stlc [-h] [-t] [file]"
    return 2
  | .run (some file) traced => Main.runFile { traced } file
  | .run none traced =>
    IO.println Repl.banner
    Main.interact { traced } {} []
