import Lamlet.Text.Integer
import Lamlet.Text.Quoted

/-!
# The arguments of the command

The command takes switches, one of them with a value, and the name of a file.  Switches
may stand anywhere before a lone `--` and may be shortened to any unambiguous beginning.

## Main definitions

* `Switch` — the switches.
* `Argument`, `Argument.classify` — what a single argument is.
* `Options` — what the arguments say.
* `UsageError` — what can be wrong with them.
* `Options.ofArguments` — reads the arguments.
* `usage`, `helpPage` — the texts about the command.
-/

namespace Lamlet.CommandLine

open Text

/-! ### Switches -/

/-- The switches of the command. -/
inductive Switch where
  /-- Asks for the help page. -/
  | help
  /-- Traces evaluation. -/
  | trace
  /-- Shows the tree of the program instead of running it. -/
  | ast
  /-- Sets the depth limit. -/
  | recursionLimit
  deriving DecidableEq, Repr, Inhabited

namespace Switch

/-- The long spelling of a switch. -/
def spelling : Switch → String
  | help => "--help"
  | trace => "--trace"
  | ast => "--ast"
  | recursionLimit => "--recursion-limit"

/-- The name of a switch in messages: all its spellings. -/
def label : Switch → String
  | help => "-h/--help"
  | s => s.spelling

/-- All switches. -/
def all : List Switch := [help, trace, ast, recursionLimit]

/-- The switches whose long spelling starts as given. -/
def startingWith (cs : List Char) : List Switch :=
  all.filter fun s => cs.isPrefixOf s.spelling.toList

end Switch

/-! ### Single arguments -/

/-- What can be wrong with the arguments. -/
inductive UsageError where
  /-- A shortened switch could be one of several. -/
  | ambiguous (argument : String) (candidates : List Switch)
  /-- A switch without a value has been given one. -/
  | ignoredValue (switch : Switch) (value : String)
  /-- The depth limit has no value. -/
  | missingValue
  /-- The depth limit is no integer. -/
  | invalidInteger (value : String)
  /-- Some arguments mean nothing. -/
  | unrecognized (arguments : List String)
  deriving DecidableEq, Repr, Inhabited

/-- The wording of an error. -/
def UsageError.message : UsageError → String
  | ambiguous argument candidates =>
    "ambiguous option: " ++ argument ++ " could match "
      ++ joinWith ", " (candidates.map Switch.spelling)
  | ignoredValue switch value =>
    "argument " ++ switch.label ++ ": ignored explicit argument " ++ quoted value
  | missingValue => "argument " ++ Switch.recursionLimit.label ++ ": expected one argument"
  | invalidInteger value =>
    "argument " ++ Switch.recursionLimit.label ++ ": invalid int value: " ++ quoted value
  | unrecognized arguments => "unrecognized arguments: " ++ joinWith " " arguments

/-- What a single argument is. -/
inductive Argument where
  /-- A name or a value. -/
  | plain (text : String)
  /-- The lone `--` after which there are no switches. -/
  | separator
  /-- A switch without a value in the same argument. -/
  | switch (which : Switch)
  /-- A switch with a value in the same argument. -/
  | valued (which : Switch) (value : String)
  /-- Something that looks like a switch and is none. -/
  | unknown (text : String)
  deriving DecidableEq, Repr, Inhabited

namespace Argument

/-- Splits a text at its first equals sign. -/
def splitValue (cs : List Char) : List Char × Option String :=
  match cs.dropWhile (· ≠ '=') with
  | [] => (cs, none)
  | _ :: value => (cs.takeWhile (· ≠ '='), some (String.ofList value))

/-- A switch with an optional value. -/
def ofSwitch (which : Switch) : Option String → Argument
  | none => switch which
  | some value => valued which value

/-- Whether a text is a minus and a number without an exponent.  A newline at the end does
not count. -/
def isNegativeNumber : List Char → Bool
  | '-' :: cs =>
    let cs := if cs.getLast? = some '\n' then cs.dropLast else cs
    match digitRun cs with
    | (digits, []) => !digits.isEmpty
    | (_, '.' :: fraction) =>
      match digitRun fraction with
      | (digits, []) => !digits.isEmpty
      | _ => false
    | _ => false
  | _ => false

/-- What an argument is that starts with a minus and spells no switch. -/
def ofUnknown (cs : List Char) : Argument :=
  if isNegativeNumber cs || ' ' ∈ cs then plain (String.ofList cs) else unknown (String.ofList cs)

/-- What follows the first of several short switches written together: the same switch
again, any number of times.  Whatever comes after that is a value. -/
def shortCluster (cs : List Char) : Argument :=
  match cs.dropWhile (· = 'h') with
  | [] => switch .help
  | value => valued .help (String.ofList value)

/-- What an argument in front of any `--` is. -/
def classify (argument : String) : Except UsageError Argument :=
  match argument.toList with
  | '-' :: '-' :: cs =>
    let (name, value) := splitValue ('-' :: '-' :: cs)
    match Switch.all.find? fun s => s.spelling.toList = name with
    | some s => .ok (ofSwitch s value)
    | none =>
      match Switch.startingWith name with
      | [] => .ok (ofUnknown ('-' :: '-' :: cs))
      | [s] => .ok (ofSwitch s value)
      | candidates => .error (.ambiguous argument candidates)
  | ['-', 'h', '='] => .ok (valued .help "")
  | '-' :: 'h' :: '=' :: cs => .ok (shortCluster cs)
  | '-' :: 'h' :: cs => .ok (shortCluster cs)
  | ['-'] => .ok (plain argument)
  | '-' :: cs => .ok (ofUnknown ('-' :: cs))
  | _ => .ok (plain argument)

/-- What the arguments are, up to the lone `--` and after it. -/
def classifyAll : List String → Except UsageError (List Argument)
  | [] => .ok []
  | argument :: rest =>
    if argument = "--" then .ok (separator :: rest.map plain)
    else do
      let first ← classify argument
      let more ← classifyAll rest
      return first :: more

/-- An argument without a meaning, as it was given. -/
def given : Argument → String
  | plain text => text
  | unknown text => text
  | separator => "--"
  | switch s => s.spelling
  | valued s value => s.spelling ++ "=" ++ value

end Argument

/-! ### All arguments -/

/-- What the arguments say. -/
structure Options where
  /-- The file to run. -/
  file : Option String := none
  /-- Whether to trace evaluation. -/
  trace : Bool := false
  /-- Whether to show the tree instead. -/
  ast : Bool := false
  /-- The depth limit; `none` if a limit was given without a number. -/
  recursionLimit : Option Int := some 10000
  /-- Arguments that mean nothing. -/
  extras : List String := []
  deriving DecidableEq, Repr, Inhabited

/-- What the arguments ask for. -/
inductive Request where
  /-- The help page. -/
  | help
  /-- Work with these options. -/
  | work (options : Options)
  deriving DecidableEq, Repr, Inhabited

namespace Options

/-- Keeps an argument that means nothing. -/
def keep (o : Options) (argument : Argument) : Options :=
  { o with extras := o.extras ++ [argument.given] }

/-- Sets the depth limit.  A `--` is dropped here as well, which leaves no number. -/
def setLimit (o : Options) (value : String) : Except UsageError Options :=
  if value = "--" then .ok { o with recursionLimit := none }
  else
    match integer? value with
    | some n => .ok { o with recursionLimit := some n }
    | none => .error (.invalidInteger value)

/-- Takes over arguments one after the other.  The first plain one is the file; a `--`
before or right after the file is dropped. -/
def take : List Argument → Options → Except UsageError Request
  | [], o => if o.extras.isEmpty then .ok (.work o) else .error (.unrecognized o.extras)
  | .switch .help :: _, _ => .ok .help
  | .switch .trace :: rest, o => take rest { o with trace := true }
  | .switch .ast :: rest, o => take rest { o with ast := true }
  | .switch .recursionLimit :: .plain value :: rest, o => do
    let o ← o.setLimit value
    take rest o
  | .switch .recursionLimit :: _, _ => .error .missingValue
  | .valued .recursionLimit value :: rest, o => do
    let o ← o.setLimit value
    take rest o
  | .valued s value :: _, _ => .error (.ignoredValue s value)
  | .plain text :: .separator :: rest, o =>
    if o.file.isNone then take rest { o with file := some text }
    else take rest ((o.keep (.plain text)).keep .separator)
  | .plain text :: rest, o =>
    if o.file.isNone then take rest { o with file := some text }
    else take rest (o.keep (.plain text))
  | .separator :: rest, o => if o.file.isNone then take rest o else take rest (o.keep .separator)
  | .unknown text :: rest, o => take rest (o.keep (.unknown text))

/-- What the arguments of the command ask for. -/
def ofArguments (arguments : List String) : Except UsageError Request := do
  let arguments ← Argument.classifyAll arguments
  take arguments {}

end Options

/-! ### Texts -/

/-- The name of the command. -/
def commandName : String := "lambdalang"

/-- The line that shows how the command is used. -/
def usage : String :=
  "usage: " ++ commandName ++ " [-h] [--trace] [--ast] [--recursion-limit N] [file]\n"

/-- The help page. -/
def helpPage : String :=
  usage ++ "\n"
    ++ "lambda language interpreter\n\n"
    ++ "positional arguments:\n"
    ++ "  file                 file to interpret and run (if empty, goes to command-\n"
    ++ "                       line mode)\n\n"
    ++ "options:\n"
    ++ "  -h, --help           show this help message and exit\n"
    ++ "  --trace              print every call and assignment while evaluating\n"
    ++ "  --ast                print the syntax tree of file instead of running it\n"
    ++ "  --recursion-limit N  host recursion limit; deeper programs stop with a stack\n"
    ++ "                       exhaustion error\n"

/-- The message about wrong arguments. -/
def UsageError.report (e : UsageError) : String :=
  usage ++ commandName ++ ": error: " ++ e.message ++ "\n"

end Lamlet.CommandLine
