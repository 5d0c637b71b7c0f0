import Lamlet.Text.Blank

/-!
# Continued lines

A typed line goes on with the next one while it has more opening than closing brackets.
Brackets in text literals and in comments do not count.

## Main definitions

* `BracketScan` — where a scan of brackets stands: in code, a comment or a literal.
* `bracketBalance` — opening less closing brackets of a text.
* `continuation` — a line without the blanks at its end, and whether it goes on.
-/

namespace Lamlet

open Text

/-- What the next character of a scanned text belongs to. -/
inductive BracketScan where
  /-- Code, where brackets count. -/
  | code
  /-- A comment, up to its newline. -/
  | comment
  /-- A text literal. -/
  | literal
  /-- A text literal, right after a backslash. -/
  | escaped
  deriving DecidableEq, Repr, Inhabited

namespace BracketScan

/-- Where the scan stands after a character. -/
def next : BracketScan → Char → BracketScan
  | code, c => if c = '"' then literal else if c = '#' then comment else code
  | comment, c => if c = '\n' then code else comment
  | literal, c => if c = '\\' then escaped else if c = '"' then code else literal
  | escaped, _ => literal

/-- What a character adds to the balance. -/
def weight : BracketScan → Char → Int
  | code, c =>
    if c = '(' ∨ c = '\x7b' then 1 else if c = ')' ∨ c = '\x7d' then -1 else 0
  | _, _ => 0

end BracketScan

/-- Opening less closing brackets in a text, scanned from the given state. -/
def bracketBalance : BracketScan → List Char → Int
  | _, [] => 0
  | state, c :: cs => state.weight c + bracketBalance (state.next c) cs

/-- A typed line without the blanks at its end, and whether it needs a continuation. -/
def continuation (line : String) : String × Bool :=
  let cs := trimEnd line.toList
  (String.ofList cs, decide (0 < bracketBalance .code cs))

end Lamlet
