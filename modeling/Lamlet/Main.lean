import Lamlet.CommandLine.Execute

/-!
# The program

Connects the command to the terminal: arguments and files come in, texts and the exit
code go out.  With a file the whole outcome is computed and then written; the shell
writes what is new after every line.
-/

namespace Lamlet

/-- Reads the file that a session works on. -/
def readFile (path : String) : IO Session.FileContent := do
  try
    return .bytes (← IO.FS.readBinFile path)
  catch _ =>
    return .unreadable

/-- Whether the output has colours: the environment decides, else the terminal. -/
def wantsColor : IO Bool := do
  if (← IO.getEnv "NO_COLOR").isSome then return false
  if (← IO.getEnv "FORCE_COLOR").isSome then return true
  (← IO.getStdout).isTty

/-- Writes what a session has logged since the given event. -/
def writeSince (printed : Nat) (s : Session) : IO Unit := do
  let out ← IO.getStdout
  out.putStr (Event.textOf s.reporter.colored (s.world.log.toList.drop printed))
  out.flush

/-- Takes lines from the terminal until one of them ends the shell. -/
partial def converseLive (printed : Nat) (shell : Shell) : IO Unit := do
  let asked := shell.notify shell.prompt.text
  writeSince printed asked.session
  let printed := asked.session.world.log.size
  let line ← (← IO.getStdin).getLine
  let (stop, shell) := asked.execute (if line.isEmpty then "EOF" else line)
  writeSince printed shell.session
  unless stop do
    converseLive shell.session.world.log.size shell

/-- Writes the outcome of the command and gives its exit code. -/
def writeOutcome (outcome : CommandLine.Outcome) : IO UInt32 := do
  (← IO.getStdout).putStr outcome.output
  (← IO.getStderr).putStr outcome.errors
  return match outcome.ending with
    | .returned => 0
    | .exit none => 0
    | .exit (some code) => code.toNat.toUInt32
    | .limitOverflow => 1
    | .limitMissing => 1
    | .interrupted _ => 1

/-- Carries out what the arguments ask for. -/
def runCommand (arguments : List String) : IO UInt32 := do
  let colored ← wantsColor
  match CommandLine.Options.ofArguments arguments with
  | .ok (.work o) =>
    match o.file, o.frames with
    | none, .ok frames =>
      let reporter : Reporter := { tracing := o.trace, colored }
      converseLive 0 ((Shell.start reporter frames).notify Shell.greeting)
      return 0
    | some path, _ =>
      let content ← readFile path
      writeOutcome (CommandLine.work o colored (fun _ => content) "")
    | none, .error ending => writeOutcome { ending }
  | _ => writeOutcome (CommandLine.execute arguments colored (fun _ => .unreadable) "")

end Lamlet

/-- The interpreter's command. -/
def main (arguments : List String) : IO UInt32 := Lamlet.runCommand arguments
