import Lamlet.Text.Printable

/-!
# Quoted texts

Two written forms of a text.  A *literal* is read back by the lexer: it puts a
backslash before each backslash and each quotation mark, and nothing else.  A
*quotation* is for people who look at a tree: it picks its marks by the text, and
writes every character that cannot be printed by its code.

## Main definitions

* `literal` — the text between quotation marks, as the lexer reads it.
* `quoted` — the text between marks on one line, unprintable characters escaped.
* `quotedTuple`, `quotedList` — several quotations, in round or square brackets.
-/

namespace Lamlet.Text

/-! ### Literals -/

/-- Puts a backslash before each backslash and each quotation mark. -/
def escapeLiteral : List Char → List Char
  | [] => []
  | c :: cs => if c = '\\' ∨ c = '"' then '\\' :: c :: escapeLiteral cs else c :: escapeLiteral cs

/-- The literal that denotes a text. -/
def literal (s : String) : String := String.ofList ('"' :: (escapeLiteral s.toList ++ ['"']))

/-! ### Quotations -/

/-- The `width` last hexadecimal digits of a number, in lower case. -/
def hexDigits : Nat → Nat → List Char
  | 0, _ => []
  | width + 1, n => hexDigits width (n / 16) ++ [Nat.digitChar (n % 16)]

/-- The code of a character after a backslash, in the shortest of three widths. -/
def escapeCode (code : Nat) : List Char :=
  if code < 0x100 then '\\' :: 'x' :: hexDigits 2 code
  else if code < 0x10000 then '\\' :: 'u' :: hexDigits 4 code
  else '\\' :: 'U' :: hexDigits 8 code

/-- A character as it stands in a quotation with the given marks. -/
def escapeChar (mark c : Char) : List Char :=
  if c = '\\' ∨ c = mark then ['\\', c]
  else if c = '\n' then ['\\', 'n']
  else if c = '\r' then ['\\', 'r']
  else if c = '\t' then ['\\', 't']
  else if isPrintable c then [c]
  else escapeCode c.toNat

/-- The marks around a quotation: apostrophes, unless the text has one of them and
no quotation mark. -/
def markFor (cs : List Char) : Char :=
  if '\x27' ∈ cs ∧ '"' ∉ cs then '"' else '\x27'

/-- A text between marks, on one line. -/
def quoted (s : String) : String :=
  let mark := markFor s.toList
  String.ofList (mark :: (s.toList.flatMap (escapeChar mark) ++ [mark]))

/-- The texts with a separator between each two. -/
def joinWith (separator : String) : List String → String
  | [] => ""
  | [s] => s
  | s :: rest => s ++ separator ++ joinWith separator rest

/-- The items in round brackets; a single one is followed by a comma. -/
def tuple : List String → String
  | [item] => "(" ++ item ++ ",)"
  | items => "(" ++ joinWith ", " items ++ ")"

/-- Quotations in round brackets. -/
def quotedTuple (names : List String) : String := tuple (names.map quoted)

/-- Quotations in square brackets. -/
def quotedList (names : List String) : String := "[" ++ joinWith ", " (names.map quoted) ++ "]"

end Lamlet.Text
