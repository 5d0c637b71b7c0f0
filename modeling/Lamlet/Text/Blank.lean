/-!
# Blank characters

White space is what the Unicode property `White_Space` says.  Where text is trimmed, the
four information separators count as blank too; around integers they do not.  The lexer
knows a smaller set of its own.

## Main definitions

* `isWhiteSpace`, `isBlank` — the two classes of characters.
* `dropEnd`, `trimBy` — a text without the characters of a class at its end, or around it.
* `trimEnd`, `trim` — the same for blanks.
-/

namespace Lamlet.Text

/-- The ranges of code points with the property `White_Space`, in order. -/
def whiteSpaceRanges : List (Nat × Nat) :=
  [(0x09, 0x0D), (0x20, 0x20), (0x85, 0x85), (0xA0, 0xA0), (0x1680, 0x1680), (0x2000, 0x200A),
   (0x2028, 0x2029), (0x202F, 0x202F), (0x205F, 0x205F), (0x3000, 0x3000)]

/-- Whether a code point lies in one of the given ranges, ends included. -/
def inRanges (ranges : List (Nat × Nat)) (code : Nat) : Bool :=
  ranges.any fun range => range.1 ≤ code && code ≤ range.2

/-- Whether a character is white space. -/
def isWhiteSpace (c : Char) : Bool := inRanges whiteSpaceRanges c.toNat

/-- Whether a character is blank: white space or an information separator. -/
def isBlank (c : Char) : Bool := isWhiteSpace c || inRanges [(0x1C, 0x1F)] c.toNat

/-- The text without the characters of a class that it ends in. -/
def dropEnd (p : Char → Bool) (cs : List Char) : List Char := (cs.reverse.dropWhile p).reverse

/-- The text without the characters of a class around it. -/
def trimBy (p : Char → Bool) (cs : List Char) : List Char := dropEnd p (cs.dropWhile p)

/-- The text without the blanks it ends in. -/
def trimEnd (cs : List Char) : List Char := dropEnd isBlank cs

/-- The text without the blanks around it. -/
def trim (cs : List Char) : List Char := trimBy isBlank cs

end Lamlet.Text
