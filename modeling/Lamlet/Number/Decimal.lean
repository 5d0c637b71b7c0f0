import Lamlet.Number.Basic
import Lamlet.Text.Blank
import Lamlet.Text.Digit

/-!
# Decimals and numeric text

A decimal is a natural number times a power of ten.  Text denotes a decimal when it
consists of digits with at most one point and an optional exponent; the number that
it stands for is the one nearest to that decimal.

## Main definitions

* `Decimal` — `digits · 10 ^ exponent`.
* `Decimal.round?` — the nearest magnitude, computed as one exact quotient.
* `Decimal.nearest?` — the same, for exponents of any size.
* `Decimal.ofText?` — the decimal that an unsigned numeral denotes.
* `Number.ofText?` — the number that a signed numeral or a signed `Infinity` denotes.
* `Number.ofLooseText` — the number that any text stands for in a comparison.
-/

namespace Lamlet

open Text

-- powers of natural numbers are the built-in ones, whatever else is in scope
attribute [local instance(10000)] instPowNat

/-- The rational number `digits · 10 ^ exponent`. -/
structure Decimal where
  /-- The digits as one number. -/
  digits : Nat
  /-- The power of ten. -/
  exponent : Int
  deriving DecidableEq, Repr, Inhabited

namespace Decimal

/-- The magnitude nearest to a decimal; `none` when it is too large. -/
def round? (d : Decimal) : Option Magnitude :=
  Magnitude.round? (d.digits * 10 ^ d.exponent.toNat * unitsPerOne) (10 ^ (-d.exponent).toNat)

/-- The least power of ten above a decimal that is not zero: the decimal is `0.`
followed by its digits, times ten to this power. -/
def leadingPlace (d : Decimal) : Int := d.exponent + digitCount d.digits

/-- The magnitude nearest to a decimal.  Decimals of `10³¹⁰` and more overflow and
those below `10⁻³³⁰` vanish, so the powers of ten that are computed stay small. -/
def nearest? (d : Decimal) : Option Magnitude :=
  if d.digits = 0 then some .zero
  else if 310 < d.leadingPlace then none
  else if d.leadingPlace < -330 then some .zero
  else d.round?

/-- The decimal with the given digits before and after the point and the given
exponent. -/
def ofParts (whole fraction : List Nat) (exponent : Int) : Decimal :=
  ⟨ofDigits (whole ++ fraction), exponent - fraction.length⟩

/-- The number nearest to a decimal, with the given sign. -/
def toNumber (negative : Bool) (d : Decimal) : Number :=
  match d.nearest? with
  | some size => .finite negative size
  | none => .infinity negative

/-! ### Numeric text -/

/-- Takes an optional sign off a text; the flag says whether it was a minus. -/
def splitSign : List Char → Bool × List Char
  | '+' :: cs => (false, cs)
  | '-' :: cs => (true, cs)
  | cs => (false, cs)

/-- The digits after an optional point, and what follows them. -/
def splitFraction : List Char → List Nat × List Char
  | '.' :: cs => digitRun cs
  | cs => ([], cs)

/-- The exponent that a text denotes: nothing stands for zero, otherwise `e` or `E`,
an optional sign and digits up to the end. -/
def exponent? : List Char → Option Int
  | [] => some 0
  | c :: cs =>
    if c = 'e' ∨ c = 'E' then
      let (negative, cs) := splitSign cs
      match digitRun cs with
      | (d :: ds, []) =>
        let size : Int := ofDigits (d :: ds)
        some (if negative then -size else size)
      | _ => none
    else
      none

/-- The decimal that an unsigned numeral denotes: digits with at most one point among
them, at least one digit, and an optional exponent. -/
def ofText? (cs : List Char) : Option Decimal :=
  let (whole, cs) := digitRun cs
  let (fraction, cs) := splitFraction cs
  if whole.isEmpty && fraction.isEmpty then none
  else (exponent? cs).map (ofParts whole fraction)

end Decimal

namespace Number

/-- The number that a numeral with an optional sign denotes; `Infinity` is a numeral
as well.  The program matches a text against the numerals first and hands it to the
conversion of the host then.  Both are done here at once, since the conversion takes
every numeral (`convert?_shortenInfinity`). -/
def ofText? (cs : List Char) : Option Number :=
  let (negative, cs) := Decimal.splitSign cs
  if cs = "Infinity".toList then some (infinity negative)
  else (Decimal.ofText? cs).map (Decimal.toNumber negative)

/-- The number that a text stands for where a number is wanted: blanks around it do
not count, nothing at all is zero, and what is no numeral is `nan`.  What is no numeral
is never converted, so that no text fails (`ofLooseText?_eq`). -/
def ofLooseText (s : String) : Number :=
  match trim s.toList with
  | [] => zero
  | cs => (ofText? cs).getD nan

end Number

end Lamlet
