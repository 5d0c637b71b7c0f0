import Lamlet.Text.Digit

/-!
# Places in a text

A place is where a reader stands in a text: how many characters it has consumed, on
which line the last of them stands, and at which column.

## Main definitions

* `Place`, `Place.start` — a place, and the one before the first character.
* `Place.next`, `Place.advance` — the place after one more character, or after several.
* `Input` — the text still to be read, with the place reached.
-/

namespace Lamlet

/-- Where a reader stands in a text. -/
structure Place where
  /-- How many characters have been consumed. -/
  offset : Nat
  /-- The line of the last consumed character, counted from one; a newline belongs to
  the line that it opens. -/
  line : Nat
  /-- The column of the last consumed character, counted from one; zero at the start of
  a line. -/
  column : Nat
  deriving DecidableEq, Repr, Inhabited

namespace Place

/-- The place before the first character of a text. -/
def start : Place := ⟨0, 1, 0⟩

/-- The place after one more character. -/
def next (p : Place) (c : Char) : Place :=
  if c = '\n' then ⟨p.offset + 1, p.line + 1, 0⟩ else ⟨p.offset + 1, p.line, p.column + 1⟩

/-- The place after some more characters. -/
def advance (p : Place) (cs : List Char) : Place := cs.foldl next p

@[simp] theorem advance_nil (p : Place) : p.advance [] = p := rfl

@[simp] theorem advance_cons (p : Place) (c : Char) (cs : List Char) :
    p.advance (c :: cs) = (p.next c).advance cs := rfl

/-- Advancing over two texts is advancing over the one and then over the other. -/
theorem advance_append (p : Place) (cs ds : List Char) :
    p.advance (cs ++ ds) = (p.advance cs).advance ds := by
  simp [advance, List.foldl_append]

end Place

/-- A text that is being read: what is left of it, and the place reached. -/
structure Input where
  /-- The characters still to be read. -/
  rest : List Char
  /-- The place before them. -/
  place : Place
  deriving DecidableEq, Repr, Inhabited

namespace Input

open Text

/-- A whole text, nothing of it read. -/
def ofString (source : String) : Input := ⟨source.toList, .start⟩

/-- The next character, if there is one. -/
def peek? (i : Input) : Option Char := i.rest.head?

/-- Whether everything has been read. -/
def atEnd (i : Input) : Bool := i.rest.isEmpty

/-- Consumes the next character, if there is one. -/
def next (i : Input) : Option Char × Input :=
  match i.rest with
  | [] => (none, i)
  | c :: rest => (some c, ⟨rest, i.place.next c⟩)

/-- Consumes the given characters, which leaves `rest`. -/
def consume (i : Input) (consumed rest : List Char) : Input := ⟨rest, i.place.advance consumed⟩

/-- A line that tells how far the text has been read. -/
def summary (i : Input) : String :=
  "Cursor(pos=" ++ natText i.place.offset ++ ", line=" ++ natText i.place.line
    ++ ", col=" ++ natText i.place.column ++ ")"

end Input

end Lamlet
