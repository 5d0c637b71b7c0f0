import Lamlet.CommandLine
import Lamlet.Shell
import Lamlet.Term.Outline

/-!
# The command

With a file the command runs it, or shows its tree; without one it starts the shell.

## Main definitions

* `Outcome` — what the command writes, and how it ends.
* `work` — carries out a request to work.
* `execute` — the whole command.
-/

namespace Lamlet.CommandLine

/-- How the command ends. -/
inductive Ending where
  /-- It returns. -/
  | returned
  /-- It ends with an exit code. -/
  | exit (code : Option Int)
  /-- The depth limit is past what the machine can hold. -/
  | limitOverflow
  /-- The depth limit has no number. -/
  | limitMissing
  /-- It is ended by an interruption from outside the language. -/
  | interrupted (interruption : Interruption)
  deriving DecidableEq, Repr, Inhabited

/-- What the command writes, and how it ends. -/
structure Outcome where
  /-- How it ends. -/
  ending : Ending
  /-- What is written to the output. -/
  output : String := ""
  /-- What is written for errors. -/
  errors : String := ""
  deriving DecidableEq, Repr, Inhabited

/-- The largest depth limit. -/
def largestLimit : Int := 2147483647

/-- The least depth limit. -/
def leastLimit : Int := 100

/-- The number of frames for the depth limit that was asked for, or how the command ends
because of it. -/
def Options.frames (o : Options) : Except Ending Nat :=
  match o.recursionLimit with
  | none => .error .limitMissing
  | some limit =>
    if largestLimit < limit then .error .limitOverflow else .ok (max limit leastLimit).toNat

/-- Shows the trees of the programs in the queue. -/
def showTrees : Session.Action Unit :=
  modify fun s =>
    s.pending.foldl (fun s program => s.notify (Term.outline 0 (.block program.2) ++ "\n")) s

/-- Loads a file, and runs its program or shows its tree. -/
def workOnFile (ast : Bool) (content : Session.FileContent) : Session.Action Unit := do
  Session.load false content
  if ast then showTrees else Session.runPending

/-- How the command ends after an interruption has been settled. -/
def Ending.ofSettled : Settled → Ending
  | .resumed => .returned
  | .exit code => .exit code
  | .escapes interruption => .interrupted interruption

/-- The outcome of a session that has ended. -/
def outcomeOf (s : Session) (ending : Ending) : Outcome :=
  { ending, output := s.world.written s.reporter.colored }

/-- Works on a file. -/
def runFile (ast : Bool) (path : String) (reporter : Reporter) (frames : Nat)
    (content : Session.FileContent) : Outcome :=
  match (workOnFile ast content).run (Session.start reporter path false frames) with
  | .ok _ s => outcomeOf s .returned
  | .error interruption s =>
    let (message, settled) := s.reporter.settle interruption
    outcomeOf (s.notify message) (.ofSettled settled)

/-- Holds a conversation over the input. -/
def runShell (reporter : Reporter) (frames : Nat) (input : String) : Outcome :=
  outcomeOf ((Shell.start reporter frames).interact input).session .returned

/-- Carries out a request to work. -/
def work (o : Options) (colored : Bool) (files : String → Session.FileContent) (input : String) :
    Outcome :=
  match o.frames with
  | .error ending => { ending }
  | .ok frames =>
    let reporter : Reporter := { tracing := o.trace, colored }
    match o.file with
    | some path => runFile o.ast path reporter frames (files path)
    | none => runShell reporter frames input

/-- The whole command: its arguments, whether the output has colours, the files there
are, and the input. -/
def execute (arguments : List String) (colored : Bool) (files : String → Session.FileContent)
    (input : String) : Outcome :=
  match Options.ofArguments arguments with
  | .error e => { ending := .exit (some 2), errors := e.report }
  | .ok .help => { ending := .exit (some 0), output := helpPage }
  | .ok (.work o) => work o colored files input

end Lamlet.CommandLine
