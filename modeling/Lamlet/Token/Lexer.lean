import Lamlet.Token.Scan

/-!
# The lexer

A lexer reads the tokens of a text one after the other, with a slot for one token of
lookahead.  Reading all tokens at once gives a `Lexed` text.

## Main definitions

* `Lexer` — the state: the input and the slot.
* `Lexer.readNext` — reads the next token from the input, past the slot.
* `Lexer.peek`, `Lexer.next`, `Lexer.atEnd` — the next token, kept or consumed.
* `Lexed`, `Input.lex` — all tokens of a text, each with the place after it.

Every operation returns the new state beside its result, so that the place reached is
known after a fault as well.
-/

namespace Lamlet

/-! ### All tokens at once -/

/-- A token and the place right after it. -/
structure Located where
  /-- The token. -/
  token : Token
  /-- The place after its last character. -/
  after : Place
  deriving DecidableEq, Repr, Inhabited

/-- The tokens of a text, as far as it can be read. -/
structure Lexed where
  /-- The tokens in order. -/
  tokens : List Located
  /-- Where reading stopped. -/
  stop : Input
  /-- Why it stopped there, unless everything has been read. -/
  trouble : Option LexicalCause
  deriving DecidableEq, Repr, Inhabited

namespace Input

/-- Consumes the gap at the start of the input. -/
def skipGap (i : Input) : Input :=
  let gap := splitGap false i.rest
  i.consume gap.1 gap.2

/-- Reads tokens until the input ends or is stuck.  Each token takes at least one
character, so the characters themselves are budget enough. -/
def lexWithin : List Char → Input → Lexed
  | budget, i =>
    let i := i.skipGap
    match scan i.rest with
    | .finished => ⟨[], i, none⟩
    | .stuck why consumed rest => ⟨[], i.consume consumed rest, some why⟩
    | .token t lexeme rest =>
      match budget with
      | [] => ⟨[], i, none⟩
      | _ :: budget =>
        let i := i.consume lexeme rest
        let more := lexWithin budget i
        ⟨⟨t, i.place⟩ :: more.tokens, more.stop, more.trouble⟩

/-- Reads all tokens of the input. -/
def lex (i : Input) : Lexed := lexWithin i.rest i

end Input

/-- Reads all tokens of a text. -/
def lex (source : String) : Lexed := (Input.ofString source).lex

namespace Lexed

/-- The fault that stopped reading, if there is one. -/
def fault? (l : Lexed) : Option Fault :=
  l.trouble.map fun why => .atPlace (.lexical why) l.stop.place

end Lexed

/-! ### One token at a time -/

/-- A lexer: the input, and a slot for a token that has been looked at. -/
structure Lexer where
  /-- The input past the token in the slot. -/
  input : Input
  /-- The token looked at and not yet consumed. -/
  slot : Option Token := none
  deriving DecidableEq, Repr, Inhabited

namespace Lexer

/-- A lexer at the start of a text. -/
def ofString (source : String) : Lexer := { input := .ofString source }

/-- The lexer after it has consumed some characters. -/
def consume (l : Lexer) (consumed rest : List Char) : Lexer :=
  { l with input := l.input.consume consumed rest }

/-- Takes over the outcome of a scan: the token read, or a fault at the place reached. -/
def accept (l : Lexer) : Scan → Except Fault (Option Token) × Lexer
  | .finished => (.ok none, l)
  | .token t lexeme rest => (.ok (some t), l.consume lexeme rest)
  | .stuck why consumed rest =>
    let l := l.consume consumed rest
    (.error (.atPlace (.lexical why) l.input.place), l)

/-- Reads the next token from the input, or finds that there is none. -/
def readNext (l : Lexer) : Except Fault (Option Token) × Lexer :=
  let l := { l with input := l.input.skipGap }
  l.accept (scan l.input.rest)

/-- The next token, which stays in the slot. -/
def peek (l : Lexer) : Except Fault (Option Token) × Lexer :=
  match l.slot with
  | some t => (.ok (some t), l)
  | none =>
    match l.readNext with
    | (.ok found, l) => (.ok found, { l with slot := found })
    | (.error fault, l) => (.error fault, l)

/-- Consumes the next token. -/
def next (l : Lexer) : Except Fault (Option Token) × Lexer :=
  match l.slot with
  | some t => (.ok (some t), { l with slot := none })
  | none => l.readNext

/-- Whether no token is left. -/
def atEnd (l : Lexer) : Except Fault Bool × Lexer :=
  match l.peek with
  | (.ok found, l) => (.ok found.isNone, l)
  | (.error fault, l) => (.error fault, l)

/-- Consumes all tokens that are left. -/
def drain (l : Lexer) : Except Fault (List Token) × Lexer :=
  let lexed := l.input.lex
  let left : Lexer := { input := lexed.stop }
  match lexed.fault? with
  | some fault => (.error fault, left)
  | none => (.ok (l.slot.toList ++ lexed.tokens.map (·.token)), left)

/-! ### Single readers

These read one piece of text of a given form, whatever stands next. -/

/-- Reads a text literal; the next character is taken for its opening mark. -/
def readText (l : Lexer) : Except Fault (Option Token) × Lexer := l.accept (scanText l.input.rest)

/-- Reads a name or keyword, possibly an empty one. -/
def readName (l : Lexer) : Except Fault (Option Token) × Lexer := l.accept (scanName l.input.rest)

/-- Reads a number literal; `none` if there is no digit, though a point may have been
consumed. -/
def readNumber (l : Lexer) : Option Token × Lexer :=
  let split := splitNumeral l.input.rest
  (if split.1.hasDigit then some (.number split.1.value) else none,
    l.consume split.1.lexeme split.2)

/-- Consumes the rest of the line and its newline. -/
def skipLine (l : Lexer) : Lexer :=
  let line := splitLine l.input.rest
  l.consume line.1 line.2

/-- Reads characters as long as they belong to a class. -/
def readWhile (l : Lexer) (p : Char → Bool) : String × Lexer :=
  (String.ofList (l.input.rest.takeWhile p),
    l.consume (l.input.rest.takeWhile p) (l.input.rest.dropWhile p))

end Lexer

end Lamlet
