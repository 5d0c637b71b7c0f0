import Lamlet.Text.Blank
import Lamlet.Text.Digit

/-!
# Integers in text

## Main definitions

* `brokenDigits?` — digits with single underscores between them.
* `integer?` — the integer that a text denotes: white space around it does not count, and
  it may have a sign.
-/

namespace Lamlet.Text

/-- The values of digits, between any two of which one underscore may stand.  The flag
says that the last character read was a digit. -/
def brokenDigits? : Bool → List Char → Option (List Nat)
  | afterDigit, [] => if afterDigit then some [] else none
  | afterDigit, c :: cs =>
    if c = '_' then
      if afterDigit then brokenDigits? false cs else none
    else
      match digitValue? c with
      | some d => (brokenDigits? true cs).map (d :: ·)
      | none => none

/-- The most digits that an integer may be written with. -/
def maxIntegerDigits : Nat := 4300

/-- The natural number that digits with underscores between them denote. -/
def natural? (cs : List Char) : Option Nat :=
  match brokenDigits? false cs with
  | some digits => if digits.length ≤ maxIntegerDigits then some (ofDigits digits) else none
  | none => none

/-- The integer that a text denotes. -/
def integer? (s : String) : Option Int :=
  match trimBy isWhiteSpace s.toList with
  | '-' :: cs => (natural? cs).map fun n => -(n : Int)
  | '+' :: cs => (natural? cs).map fun n => (n : Int)
  | cs => (natural? cs).map fun n => (n : Int)

end Lamlet.Text
