import Lamlet.Token
import Lamlet.Place

/-!
# Faults

Everything that can go wrong while a program is read or run.  A fault is a cause and,
for faults of reading, a position in the text; kind, wording and gravity follow from
the cause.

## Main definitions

* `FaultKind` — the kinds under which faults are reported.
* `LexicalCause`, `Wanted` — why text is no token, and what the grammar wanted.
* `Cause` — the causes, with `Cause.kind`, `Cause.message` and `Cause.internal`.
* `Fault` — a cause with an optional position.
* `Interruption` — whatever ends a guarded piece of work early.
-/

namespace Lamlet

open Text

/-! ### Kinds -/

/-- The kinds of fault. -/
inductive FaultKind where
  /-- Any fault without a kind of its own. -/
  | general
  /-- A character or literal that cannot be read. -/
  | lexical
  /-- A token that does not fit the grammar. -/
  | syntactic
  /-- A name that is not bound. -/
  | undefinedVariable
  /-- A value or target of the wrong sort. -/
  | typeMismatch
  /-- A call of something that is no function. -/
  | call
  /-- Nesting deeper than the limit. -/
  | stackExhausted
  deriving DecidableEq, Repr, Inhabited

namespace FaultKind

/-- The name under which faults of a kind are reported. -/
def title : FaultKind → String
  | general => "LambdaError"
  | lexical => "LexError"
  | syntactic => "ParseError"
  | undefinedVariable => "UndefinedVariableError"
  | typeMismatch => "TypeMismatchError"
  | call => "CallError"
  | stackExhausted => "StackExhaustedError"

/-- All kinds. -/
def all : List FaultKind :=
  [general, lexical, syntactic, undefinedVariable, typeMismatch, call, stackExhausted]

/-- The kind with a given name. -/
def ofTitle? (title : String) : Option FaultKind := all.find? fun k => k.title = title

end FaultKind

/-! ### Causes -/

/-- Why the lexer cannot go on. -/
inductive LexicalCause where
  /-- No token starts with this character. -/
  | unreadable (character : Char)
  /-- A text literal has no closing quotation mark. -/
  | unterminated
  deriving DecidableEq, Repr, Inhabited

/-- The wording of a lexical cause. -/
def LexicalCause.message : LexicalCause → String
  | unreadable c => "Can't handle character: '" ++ String.ofList [c] ++ "'"
  | unterminated => "Unterminated string literal"

/-- What the grammar wanted where it found something else. -/
inductive Wanted where
  /-- The start of an expression. -/
  | expression
  /-- The name of a parameter. -/
  | parameter
  /-- A punctuation mark. -/
  | mark (which : Punctuation)
  /-- A keyword. -/
  | keyword (which : Keyword)
  deriving DecidableEq, Repr, Inhabited

/-- The wording of an unmet want, given the token found instead. -/
def Wanted.message : Wanted → Option Token → String
  | expression, none => "Unexpected end of input"
  | expression, some t => "Unexpected token: " ++ t.describe
  | parameter, found => "Expecting variable name, got " ++ Token.describeNext found
  | mark m, found => "Expecting punctuation: \"" ++ m.text ++ "\", got " ++ Token.describeNext found
  | keyword k, found => "Expecting keyword: \"" ++ k.word ++ "\", got " ++ Token.describeNext found

/-- The cause of a fault. -/
inductive Cause where
  /-- The text is not made of tokens. -/
  | lexical (why : LexicalCause)
  /-- The tokens do not fit the grammar. -/
  | syntactic (wanted : Wanted) (found : Option Token)
  /-- A name is read, or assigned inside a function, and not bound. -/
  | undefinedVariable (name : String)
  /-- An assignment to something else than a variable, named by its sort. -/
  | notAssignable (sort : String)
  /-- An operand of an arithmetic or ordering operator is no number. -/
  | notANumber (shown symbol : String)
  /-- The value called is no function. -/
  | notAFunction (shown : String)
  /-- Evaluation nests deeper than the limit. -/
  | stackExhausted
  /-- A tree has no expression where one is evaluated. -/
  | noExpression
  /-- An operator that has no meaning. -/
  | unknownOperator (symbol : String)
  /-- A value that no literal denotes. -/
  | noLiteral (shown : String)
  /-- A file that cannot be opened. -/
  | unopenable (path : String)
  /-- A file that does not hold text. -/
  | undecodable (path : String)
  /-- The name of the typed input, used as the name of a file. -/
  | reservedPath
  /-- The user stopped the work. -/
  | keyboard
  /-- Something failed outside the language. -/
  | foreign (name message : String)
  /-- A fault declared by the embedding program. -/
  | declared (kind : FaultKind) (message : String) (internal : Bool)
  deriving DecidableEq, Repr, Inhabited

namespace Cause

/-- The kind of fault that a cause makes. -/
def kind : Cause → FaultKind
  | lexical _ => .lexical
  | syntactic _ _ => .syntactic
  | undefinedVariable _ => .undefinedVariable
  | notAssignable _ => .typeMismatch
  | notANumber _ _ => .typeMismatch
  | notAFunction _ => .call
  | stackExhausted => .stackExhausted
  | declared kind _ _ => kind
  | noExpression => .general
  | unknownOperator _ => .general
  | noLiteral _ => .general
  | unopenable _ => .general
  | undecodable _ => .general
  | reservedPath => .general
  | keyboard => .general
  | foreign _ _ => .general

/-- The wording of a cause. -/
def message : Cause → String
  | lexical why => why.message
  | syntactic wanted found => wanted.message found
  | undefinedVariable name => "Undefined variable '" ++ name ++ "'"
  | notAssignable sort => "Cannot assign to non-variable " ++ sort
  | notANumber shown symbol => "Expected number but got '" ++ shown ++ "' in '" ++ symbol ++ "'"
  | notAFunction shown => "'" ++ shown ++ "' is not a function"
  | stackExhausted => "maximum recursion depth exceeded"
  | noExpression => "unknown AST node: None"
  | unknownOperator symbol => "unknown operator '" ++ symbol ++ "'"
  | noLiteral shown => "'" ++ shown ++ "' has no literal form"
  | unopenable path => "'" ++ path ++ "' could not be opened"
  | undecodable path => "'" ++ path ++ "' could not be decoded as UTF-8"
  | reservedPath => "'<in>' is a reserved filename"
  | keyboard => "keyboard interrupt"
  | foreign name message => "unknown error: '" ++ name ++ ": " ++ message ++ "'"
  | declared _ message _ => message

/-- Whether a cause is a failure of the interpreter and not of the program. -/
def internal : Cause → Bool
  | noExpression => true
  | unknownOperator _ => true
  | noLiteral _ => true
  | foreign _ _ => true
  | declared _ _ internal => internal
  | _ => false

end Cause

/-! ### Faults -/

/-- A line and a column, as faults give them. -/
structure Position where
  /-- The line, counted from one. -/
  line : Int
  /-- The column, counted from one; zero before the first character of a line. -/
  column : Int
  deriving DecidableEq, Repr, Inhabited

/-- The position that a place stands at. -/
def Place.position (p : Place) : Position := ⟨p.line, p.column⟩

/-- A fault: why, and where if it was found while reading. -/
structure Fault where
  /-- Why. -/
  cause : Cause
  /-- Where. -/
  position : Option Position := none
  deriving DecidableEq, Repr, Inhabited

namespace Fault

/-- The wording of a fault, with its position. -/
def message (f : Fault) : String :=
  match f.position with
  | some p => f.cause.message ++ " (" ++ intText p.line ++ ":" ++ intText p.column ++ ")"
  | none => f.cause.message

/-- A fault at the given place. -/
def atPlace (cause : Cause) (place : Place) : Fault := ⟨cause, some place.position⟩

end Fault

/-- What ends a guarded piece of work before it is done. -/
inductive Interruption where
  /-- A fault. -/
  | fault (fault : Fault)
  /-- The text nests deeper than the reader's limit. -/
  | tooDeep
  /-- The user stopped the work. -/
  | keyboard
  /-- The program ends with an exit code. -/
  | exit (code : Option Int)
  /-- Something failed outside the language. -/
  | foreign (name message : String)
  deriving DecidableEq, Repr, Inhabited

end Lamlet
