import Lamlet.Number.Magnitude

/-!
# Numbers

The numbers of the language are the binary64 numbers: a sign and a magnitude, two
infinities, and one value that is not a number.  Every operation computes with
exact natural numbers and rounds once.

## Main definitions

* `Number` — the numbers.
* `Number.add`, `sub`, `mul`, `div`, `rem` — arithmetic that never fails.
* `Number.rank?` — the place of a number on the integer line, infinities outermost.
* `Number.lt`, `le`, `eqv` — comparison by rank; `nan` compares with nothing.
-/

namespace Lamlet

/-- A binary64 number.  Both zeros are kept apart; all values that are not numbers
are one. -/
inductive Number where
  /-- Not a number. -/
  | nan
  /-- An infinity. -/
  | infinity (negative : Bool)
  /-- A finite number: a sign and an absolute value. -/
  | finite (negative : Bool) (size : Magnitude)
  deriving DecidableEq, Repr, Inhabited

namespace Number

/-- The number zero. -/
def zero : Number := finite false .zero

/-- The number one. -/
def one : Number := finite false .one

/-- The number nearest to `num / den` units, with the given sign; infinite on
overflow. -/
def rounded (negative : Bool) (num den : Nat) : Number :=
  match Magnitude.round? num den with
  | some size => finite negative size
  | none => infinity negative

/-! ### Arithmetic -/

/-- The units of a signed magnitude as an integer. -/
def signedUnits (negative : Bool) (size : Magnitude) : Int :=
  if negative then -(size.units : Int) else size.units

/-- The same number with the opposite sign. -/
def neg : Number → Number
  | nan => nan
  | infinity s => infinity (!s)
  | finite s a => finite (!s) a

/-- Addition.  A sum that vanishes is negative only if both terms are. -/
def add : Number → Number → Number
  | nan, _ => nan
  | _, nan => nan
  | infinity s, infinity t => if s = t then infinity s else nan
  | infinity s, finite _ _ => infinity s
  | finite _ _, infinity t => infinity t
  | finite s a, finite t b =>
    let total := signedUnits s a + signedUnits t b
    if total = 0 then finite (s && t) .zero else rounded (decide (total < 0)) total.natAbs 1

/-- Subtraction. -/
def sub (x y : Number) : Number := x.add y.neg

/-- Multiplication. -/
def mul : Number → Number → Number
  | nan, _ => nan
  | _, nan => nan
  | infinity s, infinity t => infinity (s ^^ t)
  | infinity s, finite t b => if b.units = 0 then nan else infinity (s ^^ t)
  | finite s a, infinity t => if a.units = 0 then nan else infinity (s ^^ t)
  | finite s a, finite t b => rounded (s ^^ t) (a.units * b.units) unitsPerOne

/-- Division.  Dividing by zero gives an infinity, or `nan` when the dividend is
zero as well. -/
def div : Number → Number → Number
  | nan, _ => nan
  | _, nan => nan
  | infinity _, infinity _ => nan
  | infinity s, finite t _ => infinity (s ^^ t)
  | finite s _, infinity t => finite (s ^^ t) .zero
  | finite s a, finite t b =>
    if b.units = 0 then
      if a.units = 0 then nan else infinity (s ^^ t)
    else
      rounded (s ^^ t) (a.units * unitsPerOne) b.units

/-- Remainder with the sign of the dividend.  It is exact; an infinite divisor
leaves a finite dividend as it is. -/
def rem : Number → Number → Number
  | nan, _ => nan
  | _, nan => nan
  | infinity _, _ => nan
  | finite s a, infinity _ => finite s a
  | finite s a, finite _ b => if b.units = 0 then nan else finite s (a.mod b)

/-! ### Comparison -/

/-- The place of a number on the integer line, in units; infinities lie at the
overflow bound.  `nan` has no place. -/
def rank? : Number → Option Int
  | nan => none
  | infinity false => some overflowUnits
  | infinity true => some (-(overflowUnits : Int))
  | finite s a => some (signedUnits s a)

/-- Strictly less. -/
def lt (x y : Number) : Bool :=
  match x.rank?, y.rank? with
  | some a, some b => decide (a < b)
  | _, _ => false

/-- Less or equal. -/
def le (x y : Number) : Bool :=
  match x.rank?, y.rank? with
  | some a, some b => decide (a ≤ b)
  | _, _ => false

/-- Equality of value: both zeros are equal, and `nan` equals nothing. -/
def eqv (x y : Number) : Bool :=
  match x.rank?, y.rank? with
  | some a, some b => decide (a = b)
  | _, _ => false

/-- Only `nan` has no place. -/
theorem rank?_eq_none_iff {x : Number} : x.rank? = none ↔ x = nan := by
  cases x with
  | nan => exact ⟨fun _ => rfl, fun _ => rfl⟩
  | infinity negative => cases negative <;> exact ⟨nofun, nofun⟩
  | finite negative a => exact ⟨nofun, nofun⟩

/-- Numbers are equal if they lie at the same place. -/
theorem eqv_iff {x y : Number} : x.eqv y = true ↔ x ≠ nan ∧ x.rank? = y.rank? := by
  rw [ne_eq, ← rank?_eq_none_iff]
  unfold eqv
  cases x.rank? <;> cases y.rank? <;> simp

/-- Whether the number is finite. -/
def isFinite : Number → Bool
  | finite _ _ => true
  | _ => false

/-- Whether the number counts as true where a truth value is wanted: all do but the
zeros and `nan`. -/
def isTruthy : Number → Bool
  | nan => false
  | infinity _ => true
  | finite _ a => a.units != 0

end Number

end Lamlet
