import Lamlet.Number.Shortest

/-!
# The text of numbers

Numbers are written in three ways: in full for trees and tokens, shortened for the
programs' own output, and as literals that the lexer reads back.

## Main definitions

* `Decimal.significant` — the digits that count.
* `Decimal.positional`, `Decimal.scientific` — the two layouts of a decimal.
* `Number.text` — the full text: `7.0`, `1e+22`, `nan`.
* `Number.shown` — the text in output: `7`, `0.1`, `Infinity`.
* `Number.literal?` — the literal of a number, if it has one.
-/

namespace Lamlet

open Text

namespace Decimal

/-! ### Layouts -/

/-- The digits of a decimal without the zeros at the end. -/
def significant (d : Decimal) : List Char :=
  ((decimalDigits d.digits).reverse.dropWhile (· = '0')).reverse

/-- Digits with the point after the first `place` of them, filled up with zeros so that
at least one digit stands on each side. -/
def layPositional (digits : List Char) (place : Int) : List Char :=
  if place ≤ 0 then
    '0' :: '.' :: (List.replicate (-place).toNat '0' ++ digits)
  else if place < digits.length then
    digits.take place.toNat ++ '.' :: digits.drop place.toNat
  else
    digits ++ List.replicate (place.toNat - digits.length) '0' ++ ['.', '0']

/-- An exponent with its sign and at least two digits. -/
def layExponent (e : Int) : List Char :=
  let digits := decimalDigits e.natAbs
  (if e < 0 then '-' else '+') :: (if digits.length < 2 then '0' :: digits else digits)

/-- One digit, the others after a point if there are any, and the exponent. -/
def layScientific (digits : List Char) (place : Int) : List Char :=
  match digits with
  | [] => ['0']
  | [d] => d :: 'e' :: layExponent (place - 1)
  | d :: ds => d :: '.' :: (ds ++ 'e' :: layExponent (place - 1))

/-- The decimal without an exponent. -/
def positional (d : Decimal) : List Char := layPositional d.significant d.leadingPlace

/-- The decimal with an exponent. -/
def scientific (d : Decimal) : List Char := layScientific d.significant d.leadingPlace

/-- Whether a decimal is written without an exponent: it has at most sixteen digits
before the point, or at most three zeros after it. -/
def isPositional (d : Decimal) : Bool := -4 < d.leadingPlace && d.leadingPlace ≤ 16

end Decimal

/-! ### Magnitudes -/

namespace Magnitude

/-- The text of a magnitude: without an exponent from `0.0001` up to sixteen digits
before the point, with one outside these bounds. -/
def text (a : Magnitude) : List Char :=
  if a.units = 0 then ['0', '.', '0']
  else
    let d := a.shortest
    if d.isPositional then d.positional else d.scientific

/-- The text of a magnitude without an exponent and without a needless fraction. -/
def plainText (a : Magnitude) : List Char :=
  if a.isWhole then decimalDigits a.wholePart else a.shortest.positional

end Magnitude

/-! ### Numbers -/

namespace Number

/-- The full text of a number. -/
def text : Number → String
  | nan => "nan"
  | infinity false => "inf"
  | infinity true => "-inf"
  | finite false a => String.ofList a.text
  | finite true a => String.ofList ('-' :: a.text)

/-- The text of a number in output: whole numbers have no fraction, and zero has no
sign. -/
def shown : Number → String
  | nan => "NaN"
  | infinity false => "Infinity"
  | infinity true => "-Infinity"
  | finite s a =>
    if a.isWhole then
      let digits := decimalDigits a.wholePart
      String.ofList (if s && a.units != 0 then '-' :: digits else digits)
    else
      text (finite s a)

/-- The literal that denotes a number: plain decimal digits.  There is one for every
finite number that is not below zero. -/
def literal? : Number → Option String
  | finite s a => if s && a.units != 0 then none else some (String.ofList a.plainText)
  | _ => none

end Number

end Lamlet
