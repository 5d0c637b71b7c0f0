import Lamlet.Fault

/-!
# Reading one token

The lexical rules.  Between tokens there are gaps of blanks and comments.  A token is
read by its first character: a quotation mark opens a text literal, a digit a number, a
letter a name, and the rest are punctuation marks and runs of operator characters.

## Main definitions

* `isGapChar`, `isNameStart`, `isNameChar`, `isOperatorChar` — the character classes.
* `splitGap` — the gap at the start of a text.
* `textBody?`, `splitNumeral` — the two literals that are not plain runs.
* `Scan`, `scan` — the token at the start of a text, with its lexeme.
-/

namespace Lamlet

open Text

/-! ### Character classes -/

/-- The blanks between tokens. -/
def isGapChar (c : Char) : Bool := c = ' ' || c = '\t' || c = '\n'

/-- The characters that a name starts with. -/
def isNameStart (c : Char) : Bool := c.isAlpha || c = '_' || c = 'λ'

/-- The characters that a name goes on with; comparison signs are among them. -/
def isNameChar (c : Char) : Bool :=
  isNameStart c || c.isDigit || c = '?' || c = '!' || c = '<' || c = '>' || c = '='

/-- The characters that operators consist of. -/
def isOperatorChar (c : Char) : Bool :=
  c ∈ ['+', '-', '*', '/', '%', '=', '&', '|', '<', '>', '!']

/-! ### Gaps -/

/-- Splits a text after the gap at its start; the flag says that the text starts inside
a comment, which lasts up to its newline. -/
def splitGap : Bool → List Char → List Char × List Char
  | _, [] => ([], [])
  | true, c :: cs =>
    let gap := splitGap (c != '\n') cs
    (c :: gap.1, gap.2)
  | false, c :: cs =>
    if isGapChar c || c = '#' then
      let gap := splitGap (c = '#') cs
      (c :: gap.1, gap.2)
    else
      ([], c :: cs)

/-- Splits a text after its first newline. -/
def splitLine (cs : List Char) : List Char × List Char :=
  let line := cs.takeWhile (· ≠ '\n')
  match cs.dropWhile (· ≠ '\n') with
  | [] => (line, [])
  | newline :: rest => (line ++ [newline], rest)

/-! ### Text literals -/

/-- A text literal after its opening mark. -/
structure TextBody where
  /-- The characters that the literal denotes. -/
  content : List Char
  /-- The characters of the literal, the closing mark included. -/
  lexeme : List Char
  /-- The characters after the literal. -/
  rest : List Char
  deriving DecidableEq, Repr, Inhabited

/-- Reads a text literal after its opening mark, or finds that it is never closed.  The
flag says that a backslash has just been read: the next character then stands for
itself. -/
def textBody? : Bool → List Char → Option TextBody
  | _, [] => none
  | true, c :: cs => (textBody? false cs).map fun b => ⟨c :: b.content, c :: b.lexeme, b.rest⟩
  | false, c :: cs =>
    if c = '\\' then (textBody? true cs).map fun b => ⟨b.content, c :: b.lexeme, b.rest⟩
    else if c = '"' then some ⟨[], [c], cs⟩
    else (textBody? false cs).map fun b => ⟨c :: b.content, c :: b.lexeme, b.rest⟩

/-! ### Number literals -/

/-- A number literal: digits, and more digits if there is a point. -/
structure Numeral where
  /-- The digits before the point. -/
  whole : List Char
  /-- The digits after the point, if there is one. -/
  fraction : Option (List Char)
  deriving DecidableEq, Repr, Inhabited

namespace Numeral

/-- The characters of a number literal. -/
def lexeme (n : Numeral) : List Char :=
  match n.fraction with
  | none => n.whole
  | some digits => n.whole ++ '.' :: digits

/-- The value of a digit from `0` to `9`. -/
def digit (c : Char) : Nat := c.toNat - '0'.toNat

/-- The decimal that a number literal denotes. -/
def decimal (n : Numeral) : Decimal :=
  .ofParts (n.whole.map digit) ((n.fraction.getD []).map digit) 0

/-- The number nearest to what a number literal denotes. -/
def value (n : Numeral) : Number := n.decimal.toNumber false

/-- Whether the literal has any digit. -/
def hasDigit (n : Numeral) : Bool := !(n.whole.isEmpty && (n.fraction.getD []).isEmpty)

end Numeral

/-- Splits a text after the longest number literal at its start.  A second point ends
the literal. -/
def splitNumeral (cs : List Char) : Numeral × List Char :=
  let whole := cs.takeWhile Char.isDigit
  match cs.dropWhile Char.isDigit with
  | '.' :: rest => (⟨whole, some (rest.takeWhile Char.isDigit)⟩, rest.dropWhile Char.isDigit)
  | rest => (⟨whole, none⟩, rest)

/-! ### Tokens -/

/-- The token that a run of name characters is. -/
def nameToken (lexeme : List Char) : Token :=
  let name := String.ofList lexeme
  match Keyword.ofName? name with
  | some k => .keyword k
  | none => .name name

/-- What stands at the start of a text. -/
inductive Scan where
  /-- Nothing: the text is empty. -/
  | finished
  /-- A token, with its characters and what follows them. -/
  | token (token : Token) (lexeme rest : List Char)
  /-- No token; some characters may have been consumed to find that out. -/
  | stuck (why : LexicalCause) (consumed rest : List Char)
  deriving DecidableEq, Repr, Inhabited

/-- Reads a text literal; the first character is taken for its opening mark. -/
def scanText : List Char → Scan
  | [] => .stuck .unterminated [] []
  | mark :: cs =>
    match textBody? false cs with
    | some b => .token (.text (String.ofList b.content)) (mark :: b.lexeme) b.rest
    | none => .stuck .unterminated (mark :: cs) []

/-- Reads a run of name characters. -/
def scanName (cs : List Char) : Scan :=
  .token (nameToken (cs.takeWhile isNameChar)) (cs.takeWhile isNameChar) (cs.dropWhile isNameChar)

/-- Reads the token at the start of a text, chosen by the first character. -/
def scan : List Char → Scan
  | [] => .finished
  | c :: cs =>
    if c = '"' then scanText (c :: cs)
    else if c.isDigit then
      let split := splitNumeral (c :: cs)
      .token (.number split.1.value) split.1.lexeme split.2
    else if isNameStart c then scanName (c :: cs)
    else
      match Punctuation.ofChar? c with
      | some m => .token (.mark m) [c] cs
      | none =>
        if isOperatorChar c then
          let lexeme := (c :: cs).takeWhile isOperatorChar
          .token (.operator (String.ofList lexeme)) lexeme ((c :: cs).dropWhile isOperatorChar)
        else
          .stuck (.unreadable c) [] (c :: cs)

end Lamlet
