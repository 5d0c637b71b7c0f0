import Lamlet.Continuation
import Lamlet.Session

/-!
# The shell

The shell takes a session line by line.  A line is a command of the shell or a piece of
a program; pieces are held back until their brackets are closed.

## Main definitions

* `Shell`, `Prompt` — the state of the shell, and what it shows before a line.
* `Command`, `Command.ofLine` — what a line asks for.
* `Shell.enter`, `Shell.execute` — takes a piece of a program, or any line.
* `Shell.interact` — the whole conversation.
-/

namespace Lamlet

open Text

/-- What is shown before a line is typed. -/
inductive Prompt where
  /-- A new program is expected. -/
  | ready
  /-- The rest of a program is expected. -/
  | continuing
  deriving DecidableEq, Repr, Inhabited

/-- The text of a prompt. -/
def Prompt.text : Prompt → String
  | ready => "> "
  | continuing => ". "

/-! ### Commands -/

/-- What a line asks for. -/
inductive Command where
  /-- Nothing. -/
  | blank
  /-- A short introduction. -/
  | help
  /-- The end, because the input has ended. -/
  | endOfInput
  /-- The end. -/
  | exit
  /-- Work on a piece of a program. -/
  | enter (line : String)
  deriving DecidableEq, Repr, Inhabited

/-- The characters that the name of a command consists of. -/
def isCommandChar (c : Char) : Bool := c.isAlphanum || c = '_'

/-- What a line asks for, by the word that it starts with.  Blanks around it do not
count, and a question mark asks for help. -/
def Command.ofLine (line : String) : Command :=
  match trim line.toList with
  | [] => blank
  | c :: cs =>
    if c = '?' then help
    else
      let word := String.ofList ((c :: cs).takeWhile isCommandChar)
      if word = "help" then help
      else if word = "EOF" then endOfInput
      else if word = "exit" then exit
      else enter (String.ofList (c :: cs))

/-! ### The shell -/

/-- The state of the shell. -/
structure Shell where
  /-- The session that programs are run in. -/
  session : Session
  /-- The text held back because it is not complete. -/
  held : String := ""
  /-- What is shown before the next line. -/
  prompt : Prompt := .ready
  deriving Repr, Inhabited

namespace Shell

/-- What is shown when the shell starts. -/
def greeting : String :=
  "lambda interpreter :: Python backend\nType '?' or 'help' for more information.\n"

/-- The answer to a request for help. -/
def helpText : String :=
  "Welcome to the lambda interpreter!\n\n"
    ++ "Every line is an expression; separate several expressions with ';'. Values \n"
    ++ "are numbers, strings, booleans and functions.\n\n"
    ++ "Try it out by typing 'add = lambda (x, y) x + y'. This will bind a function to \n"
    ++ "the global 'add'. Next, try typing 'add(3, 4)', giving 7 as the result. \n"
    ++ "print and println write values to standard output.\n"

/-- A shell with a new session. -/
def start (reporter : Reporter) (frames : Nat) : Shell :=
  { session := .start reporter Session.typedInput true frames }

/-- Adds a text of the shell to the output. -/
def notify (s : Shell) (text : String) : Shell := { s with session := s.session.notify text }

/-- Reads and runs a complete text. -/
def runText (source : String) : Session.Action Unit := do
  discard (Session.add source)
  Session.runPending

/-- Shows the value of the program that has just been run. -/
def showResult (s : Session) : Session :=
  match s.pop? with
  | (some text, s) => s.notify (text ++ "\n")
  | (none, s) => s

/-- Runs a complete text in a session and shows its value, or the message about what went
wrong.  The flag says that the shell has to end. -/
def runGuarded (source : String) (s : Session) : Bool × Session :=
  match (runText source).run s with
  | .ok _ s => (false, showResult s)
  | .error interruption s =>
    let (message, settled) := s.reporter.settle interruption
    (settled != .resumed, s.notify message)

/-- Takes a piece of a program: holds it back if it is not complete, together with what
has been held back before, and runs it otherwise. -/
def enter (s : Shell) (line : String) : Bool × Shell :=
  let joined := if s.held = "" then line else s.held ++ "\n" ++ line
  let (text, continues) := continuation joined
  if continues then
    (false, { s with held := text, prompt := .continuing })
  else
    let (stop, session) := runGuarded text s.session
    (stop, { session, held := "", prompt := .ready })

/-- Takes a line.  The flag says that the shell has to end. -/
def execute (s : Shell) (line : String) : Bool × Shell :=
  match Command.ofLine line with
  | .blank => (false, s)
  | .help => (false, s.notify helpText)
  | .endOfInput => (true, s.notify "\n")
  | .exit => (true, s)
  | .enter text => s.enter text

/-- Shows the prompt and takes a line, for each line up to the one that ends the shell.
The end of the input is a line as well. -/
def converse : List String → Shell → Shell
  | [], s => ((s.notify s.prompt.text).execute "EOF").2
  | line :: lines, s =>
    let (stop, s) := (s.notify s.prompt.text).execute line
    if stop then s else converse lines s

/-- The whole conversation over an input. -/
def interact (s : Shell) (input : String) : Shell :=
  converse ((typedLines input.toList).map String.ofList) (s.notify greeting)

end Shell

end Lamlet
