import Lamlet.Assoc
import Lamlet.Eval
import Lamlet.Text.Lines

/-!
# Reports

A reporter turns faults into messages: where, of what kind, and in which words, followed
by the line of the source with a caret under the character in question.  It also decides
what happens after a fault: a fatal reporter ends the program.

## Main definitions

* `Tint`, `paint` — bold text, in colour or plain.
* `Reporter` — the state: how to report, and the sources known so far.
* `Reporter.diagnose` — a line with a caret under one character.
* `Reporter.report` — the message about a fault.
* `Reporter.settle` — what follows from an interruption of guarded work.
* `Event.text`, `World.written` — what a program wrote.
-/

namespace Lamlet

open Text

/-! ### Colour -/

/-- The colours that are used. -/
inductive Tint where
  /-- For faults. -/
  | red
  /-- For the steps of a trace. -/
  | cyan
  deriving DecidableEq, Repr, Inhabited

/-- The terminal code of a colour. -/
def Tint.code : Tint → String
  | red => "\x1b[31m"
  | cyan => "\x1b[36m"

/-- Bold text, possibly in a colour; plain text if the output has no colours. -/
def paint (colored : Bool) (tint : Option Tint) (text : String) : String :=
  if colored then
    "\x1b[1m" ++ (match tint with | some t => t.code | none => "") ++ text ++ "\x1b[0m"
  else
    text

/-! ### What a program wrote -/

/-- The line of a step in a trace. -/
def stepLine (colored : Bool) (sort text : String) : String :=
  paint colored (some .cyan) ("[" ++ sort ++ "] ") ++ text ++ "\n"

/-- What an event adds to the written output. -/
def Event.text (colored : Bool) : Event → String
  | output text => text
  | step sort text => stepLine colored sort text
  | hostCall _ _ => ""
  | notice text => text

/-- All that events add to the written output. -/
def Event.textOf (colored : Bool) (events : List Event) : String :=
  String.join (events.map (text colored))

/-- The output written so far. -/
def World.written (colored : Bool) (w : World) : String := Event.textOf colored w.log.toList

/-- Adds a text of the interpreter to the output. -/
def World.notify (w : World) (text : String) : World := { w with log := w.log.push (.notice text) }

/-! ### Reporters -/

/-- How faults are reported. -/
structure Reporter where
  /-- Whether a fault ends the program. -/
  fatal : Bool := true
  /-- Whether evaluation is traced. -/
  tracing : Bool := false
  /-- Whether the output has colours. -/
  colored : Bool := false
  /-- The files known so far, each with its text while that is being worked on. -/
  sources : List (String × Option String) := []
  deriving DecidableEq, Repr, Inhabited

/-- What happens after an interruption. -/
inductive Settled where
  /-- The work goes on after the guarded piece. -/
  | resumed
  /-- The program ends. -/
  | exit (code : Option Int)
  /-- The interruption goes further out. -/
  | escapes (interruption : Interruption)
  deriving DecidableEq, Repr, Inhabited

namespace Reporter

/-- Makes a file known, with its text or without. -/
def register (r : Reporter) (path : String) (source : Option String) : Reporter :=
  { r with sources := Assoc.put path source r.sources }

/-- The text registered for a file. -/
def source? (r : Reporter) (path : String) : Option String := (r.sources.lookup path).join

/-- The file that faults are ascribed to, the first one known, with its text. -/
def origin (r : Reporter) : String × Option String := r.sources.headD ("<unknown>", none)

/-- The line of the source that a fault points to, if there is one. -/
def quotedLine? (r : Reporter) (f : Fault) : Option String := do
  let position ← f.position
  let source ← r.origin.2
  if 0 < position.line then
    let line ← (splitLines source.toList)[position.line.toNat - 1]?
    return String.ofList line
  else
    none

/-- A line with the character in the given column set off and a caret under it.  Columns
count from one; column zero is taken for the first. -/
def diagnose (r : Reporter) (line : String) (column : Int) : String :=
  let before := (column - 1).toNat
  let cs := line.toList
  "  " ++ String.ofList (cs.take before)
    ++ paint r.colored (some .red) (String.ofList ((cs.drop before).take 1))
    ++ String.ofList (cs.drop (before + 1)) ++ "\n"
    ++ "  " ++ String.ofList (List.replicate before ' ') ++ paint r.colored (some .red) "^"

/-- The start of a message: the file, and the position if there is one. -/
def header (r : Reporter) (f : Fault) : String :=
  paint r.colored none <|
    match f.position with
    | some p => r.origin.1 ++ ":" ++ intText p.line ++ ":" ++ intText p.column ++ ": "
    | none => r.origin.1 ++ ": "

/-- The first line of a message. -/
def headline (r : Reporter) (f : Fault) : String :=
  r.header f
    ++ (if f.cause.internal then paint r.colored (some .red) "[internal] " else "")
    ++ paint r.colored (some .red) (f.cause.kind.title ++ ": ") ++ f.cause.message

/-- The message about a fault.  The line in question is shown unless the fault is one of
the interpreter itself. -/
def report (r : Reporter) (f : Fault) : String :=
  let quotation :=
    match f.position, r.quotedLine? f with
    | some p, some line => if f.cause.internal then "" else r.diagnose line p.column ++ "\n"
    | _, _ => ""
  r.headline f ++ "\n" ++ quotation

/-- What happens after a fault has been reported. -/
def afterReport (r : Reporter) : Settled := if r.fatal then .exit (some 1) else .resumed

/-- Settles an interruption: the message, and what happens next.  Failures from outside
the language are reported and then go further out; a wish to end the program is
granted in silence. -/
def settle (r : Reporter) : Interruption → String × Settled
  | .fault f => (r.report f, r.afterReport)
  | .tooDeep => (r.report { cause := .stackExhausted }, r.afterReport)
  | .keyboard => (r.report { cause := .keyboard }, r.afterReport)
  | .exit code => ("", .exit code)
  | .foreign name message =>
    (r.report { cause := .foreign name message },
      if r.fatal then .exit (some 1) else .escapes (.foreign name message))

end Reporter

end Lamlet
