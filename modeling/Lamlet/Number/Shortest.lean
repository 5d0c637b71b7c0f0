import Lamlet.Number.Decimal

/-!
# Fewest digits that read back

Every magnitude is a decimal, but with up to a thousand digits.  The text of a number
uses the fewest digits whose decimal is still read as that number, and of those the
decimal nearest to it.

## Main definitions

* `Magnitude.toDecimal` — the exact decimal of a magnitude.
* `Magnitude.decimalAt?` — the best decimal on a coarser grid, if one reads back.
* `Magnitude.shortest` — the decimal with the fewest digits that reads back.
-/

namespace Lamlet.Magnitude

open Text

-- powers of natural numbers are the built-in ones, whatever else is in scope
attribute [local instance(10000)] instPowNat

/-- The exact decimal of a magnitude: a unit is `5¹⁰⁷⁴ · 10⁻¹⁰⁷⁴`. -/
def toDecimal (a : Magnitude) : Decimal := ⟨a.units * 5 ^ unitBits, -(unitBits : Int)⟩

/-- Whether a decimal is read as this magnitude. -/
def isReadFrom (a : Magnitude) (d : Decimal) : Bool := d.nearest? == some a

/-- The decimal that leaves out the last `drop` digits of the exact one: the nearer of
the two neighbours (the even one of two equally near) if it reads back, else the other
neighbour if that one does. -/
def decimalAt? (a : Magnitude) (exact : Decimal) (drop : Nat) : Option Decimal :=
  let low := exact.digits / 10 ^ drop
  let near := roundDiv exact.digits (10 ^ drop)
  let far := if near = low then low + 1 else low
  [near, far].findSome? fun digits =>
    let d : Decimal := ⟨digits, exact.exponent + drop⟩
    if a.isReadFrom d then some d else none

/-- The decimal with the fewest digits, at most seventeen, that is read as this
magnitude. -/
def shortest (a : Magnitude) : Decimal :=
  let exact := a.toDecimal
  let count := digitCount exact.digits
  ((List.range 17).findSome? fun n => a.decimalAt? exact (count - (n + 1))).getD exact

end Lamlet.Magnitude
