import Lamlet.Number.Text

/-!
# Tokens

The words of the language.  Keywords and punctuation are closed sets; names,
operators and literals carry their text or value.

## Main definitions

* `Keyword`, `Punctuation` — the closed sets, each with its spelling.
* `Token` — a token.
* `Token.describe` — the text by which faults refer to a token.
-/

namespace Lamlet

/-! ### Keywords -/

/-- The reserved names. -/
inductive Keyword where
  /-- Opens a conditional. -/
  | ifWord
  /-- Opens the first branch of a conditional. -/
  | thenWord
  /-- Opens the second branch of a conditional. -/
  | elseWord
  /-- Opens a function, spelled out. -/
  | lambdaWord
  /-- Opens a function, as one letter. -/
  | lambdaLetter
  /-- The truth value true. -/
  | trueWord
  /-- The truth value false. -/
  | falseWord
  deriving DecidableEq, Repr, Inhabited

namespace Keyword

/-- How a keyword is spelled. -/
def word : Keyword → String
  | ifWord => "if"
  | thenWord => "then"
  | elseWord => "else"
  | lambdaWord => "lambda"
  | lambdaLetter => "λ"
  | trueWord => "true"
  | falseWord => "false"

/-- All keywords. -/
def all : List Keyword :=
  [ifWord, thenWord, elseWord, lambdaWord, lambdaLetter, trueWord, falseWord]

/-- The keyword that a name spells, if it is one. -/
def ofName? (name : String) : Option Keyword := all.find? fun k => k.word = name

/-- A keyword is read back from its spelling. -/
theorem ofName?_word (k : Keyword) : ofName? k.word = some k := by cases k <;> decide

/-- Only its own spelling is read as a keyword. -/
theorem word_of_ofName? {name : String} {k : Keyword} (h : ofName? name = some k) :
    k.word = name := by
  simpa using List.find?_some h

end Keyword

/-! ### Punctuation -/

/-- The characters that stand alone. -/
inductive Punctuation where
  /-- `,` -/
  | comma
  /-- `;` -/
  | semicolon
  /-- `(` -/
  | leftParen
  /-- `)` -/
  | rightParen
  /-- The opening brace. -/
  | leftBrace
  /-- The closing brace. -/
  | rightBrace
  /-- `[` -/
  | leftBracket
  /-- `]` -/
  | rightBracket
  deriving DecidableEq, Repr, Inhabited

namespace Punctuation

/-- The character of a punctuation mark. -/
def toChar : Punctuation → Char
  | comma => ','
  | semicolon => ';'
  | leftParen => '('
  | rightParen => ')'
  | leftBrace => '\x7b'
  | rightBrace => '\x7d'
  | leftBracket => '['
  | rightBracket => ']'

/-- All punctuation marks. -/
def all : List Punctuation :=
  [comma, semicolon, leftParen, rightParen, leftBrace, rightBrace, leftBracket, rightBracket]

/-- The punctuation mark that a character is, if it is one. -/
def ofChar? (c : Char) : Option Punctuation := all.find? fun m => m.toChar = c

/-- A mark is read back from its character. -/
theorem ofChar?_toChar (m : Punctuation) : ofChar? m.toChar = some m := by cases m <;> decide

/-- Only its own character is read as a mark. -/
theorem toChar_of_ofChar? {c : Char} {m : Punctuation} (h : ofChar? c = some m) :
    m.toChar = c := by
  simpa using List.find?_some h

/-- The text of a punctuation mark. -/
def text (m : Punctuation) : String := String.ofList [m.toChar]

end Punctuation

/-! ### Tokens -/

/-- A token of the language. -/
inductive Token where
  /-- A text literal, with the text that it denotes. -/
  | text (value : String)
  /-- A number literal, with its value. -/
  | number (value : Number)
  /-- A name that is no keyword. -/
  | name (spelling : String)
  /-- A keyword. -/
  | keyword (which : Keyword)
  /-- A punctuation mark. -/
  | mark (which : Punctuation)
  /-- A run of operator characters, known as an operator or not. -/
  | operator (symbol : String)
  deriving DecidableEq, Repr, Inhabited

namespace Token

/-- The sort of a token, as faults name it. -/
def sort : Token → String
  | text _ => "string"
  | number _ => "number"
  | name _ => "identifier"
  | keyword _ => "keyword"
  | mark _ => "punctuation"
  | operator _ => "operator"

/-- What a token says: its own text, or the full text of its number. -/
def content : Token → String
  | text value => value
  | number value => value.text
  | name spelling => spelling
  | keyword k => k.word
  | mark m => m.text
  | operator symbol => symbol

/-- The text by which faults refer to a token. -/
def describe (t : Token) : String := t.sort ++ " '" ++ t.content ++ "'"

/-- The text by which faults refer to the next token, or to the end of the text. -/
def describeNext : Option Token → String
  | none => "end of input"
  | some t => t.describe

end Token

end Lamlet
