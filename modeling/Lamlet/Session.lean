import Lamlet.Report
import Lamlet.Term.Grammar

/-!
# Sessions

A session reads programs, keeps them in a queue, and runs them against one world.  What
it did before an interruption stays done: the source it was working on is known to the
reporter, and the world is as the program left it.

## Main definitions

* `Session` — the state of a session.
* `Session.Action` — what can be done with a session, and interrupted.
* `Session.parse`, `Session.add`, `Session.runPending`, `Session.pop?` — the actions.
* `FileContent`, `Session.start`, `Session.load` — how a session begins.
-/

namespace Lamlet

open Text

/-- A session. -/
structure Session where
  /-- The file that is worked on, or the name of the typed input. -/
  path : String
  /-- How faults are reported. -/
  reporter : Reporter
  /-- The depth limit, in frames. -/
  frames : Nat
  /-- The scopes, and what happened so far. -/
  world : World := .initial
  /-- The programs waiting to be run, with their texts. -/
  pending : List (String × List Term) := []
  /-- The values of the programs that have been run. -/
  results : List Value := []
  deriving Repr, Inhabited

namespace Session

/-- The name under which typed input is worked on. -/
def typedInput : String := "<in>"

/-- Something done with a session.  An interruption leaves the session as it is at that
moment. -/
abbrev Action := EStateM Interruption Session

/-- Tells the reporter which text is worked on. -/
def registerSource (source : Option String) : Action Unit :=
  modify fun s => { s with reporter := s.reporter.register s.path source }

/-- Reads a program. -/
def parse (source : String) : Action (List Term) := do
  registerSource (some source)
  match Lamlet.parse (← get).frames source with
  | .ok program => pure program
  | .error failure => throw failure.interruption

/-- Reads a program and puts it into the queue. -/
def add (source : String) : Action (List Term) := do
  let program ← parse source
  modify fun s => { s with pending := s.pending ++ [(source, program)] }
  return program

/-- Runs a program against the world of the session and keeps its value. -/
def runProgram (source : String) (program : List Term) : Action Unit := do
  registerSource (some source)
  let outcome ← modifyGet fun s =>
    let (outcome, world) :=
      run s.reporter.tracing s.frames (.block program) Store.globalScope s.world
    (outcome, { s with world })
  match outcome with
  | .ok value => modify fun s => { s with results := s.results ++ [value] }
  | .error fault => throw (.fault fault)

/-- Runs several programs in order. -/
def runEach : List (String × List Term) → Action Unit
  | [] => pure ()
  | (source, program) :: rest => do
    runProgram source program
    runEach rest

/-- Runs the programs in the queue.  The queue is empty afterwards, also if one of them
fails and those behind it are dropped. -/
def runPending : Action Unit := do
  let pending ← modifyGet fun s => (s.pending, { s with pending := [] })
  runEach pending
  registerSource none

/-- Takes the last result off, as text; `none` if there is no result. -/
def pop? (s : Session) : Option String × Session :=
  (s.results.getLast?.map Value.shown, { s with results := s.results.dropLast })

/-- Adds a text of the interpreter to the output. -/
def notify (s : Session) (text : String) : Session := { s with world := s.world.notify text }

/-! ### How a session begins -/

/-- What there is under the name of a file. -/
inductive FileContent where
  /-- Nothing that can be opened. -/
  | unreadable
  /-- A file with these bytes. -/
  | bytes (content : ByteArray)
  deriving Inhabited

/-- The text in a file.  Its name must not hold a NUL character; its bytes must be UTF-8;
every kind of line end is read as a newline. -/
def FileContent.text (path : String) : FileContent → Except Interruption String
  | unreadable =>
    if '\x00' ∈ path.toList then .error (.foreign "ValueError" "embedded null byte")
    else .error (.fault { cause := .unopenable path })
  | bytes content =>
    match String.fromUTF8? content with
    | some text => .ok (String.ofList (unifyNewlines text.toList))
    | none => .error (.fault { cause := .undecodable path })

/-- A session on a file or on typed input, nothing read yet.  In a session of typed
commands faults are not fatal. -/
def start (reporter : Reporter) (path : String) (commandLine : Bool) (frames : Nat) : Session :=
  let reporter := reporter.register path none
  { path, frames, reporter := { reporter with fatal := reporter.fatal && !commandLine } }

/-- Reads the file of a session, if it is on one, and puts its program into the queue.
The name of the typed input stands for a file only in a session of typed commands, where
it stands for none. -/
def load (commandLine : Bool) (content : FileContent) : Action Unit := do
  let path := (← get).path
  if path = typedInput then
    if commandLine then pure () else throw (.fault { cause := .reservedPath })
  else
    match content.text path with
    | .ok source => discard (add source)
    | .error interruption => throw interruption

end Session

end Lamlet
