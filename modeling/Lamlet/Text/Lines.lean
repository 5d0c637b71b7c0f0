/-!
# Lines

## Main definitions

* `splitLines` — the lines of a text, without their newlines.
* `typedLines` — the lines as they are read from an input; nothing comes after the last
  newline.
* `unifyNewlines` — a text with every kind of line end turned into a newline.
-/

namespace Lamlet.Text

/-- The lines of a text.  There is always one more line than there are newlines. -/
def splitLines : List Char → List (List Char)
  | [] => [[]]
  | c :: cs =>
    match splitLines cs with
    | [] => [[c]]
    | line :: rest => if c = '\n' then [] :: line :: rest else (c :: line) :: rest

/-- The lines that an input yields when it is read line by line: a newline at the end
opens no further line. -/
def typedLines (cs : List Char) : List (List Char) :=
  let lines := splitLines cs
  if lines.getLast? = some [] then lines.dropLast else lines

/-- Turns each carriage return, with the newline after it if there is one, into a
newline. -/
def unifyNewlines : List Char → List Char
  | [] => []
  | c :: cs =>
    if c = '\r' then
      match cs with
      | d :: ds => if d = '\n' then '\n' :: unifyNewlines ds else '\n' :: unifyNewlines (d :: ds)
      | [] => ['\n']
    else
      c :: unifyNewlines cs

end Lamlet.Text
