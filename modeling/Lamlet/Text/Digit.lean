/-!
# Decimal digits

The decimal digits of every script come in runs of ten consecutive code points,
from the digit zero to the digit nine (general category `Nd`, Unicode 14).

## Main definitions

* `digitZeros` — the code point of each script's digit zero.
* `digitValue?` — the value of a decimal digit, `none` for any other character.
* `ofDigits` — the number that a row of digit values denotes.
* `decimalDigits`, `digitCount` — the digits of a number, and how many there are.

## Main results

* `digitCount_eq` — counting many digits at a time finds their number.
-/

namespace Lamlet.Text

-- powers of natural numbers are the built-in ones, whatever else is in scope
attribute [local instance(10000)] instPowNat

/-- The code points of the digits zero, in order. -/
def digitZeros : List Nat :=
  [0x30, 0x660, 0x6F0, 0x7C0, 0x966, 0x9E6, 0xA66, 0xAE6, 0xB66, 0xBE6, 0xC66, 0xCE6, 0xD66,
   0xDE6, 0xE50, 0xED0, 0xF20, 0x1040, 0x1090, 0x17E0, 0x1810, 0x1946, 0x19D0, 0x1A80, 0x1A90,
   0x1B50, 0x1BB0, 0x1C40, 0x1C50, 0xA620, 0xA8D0, 0xA900, 0xA9D0, 0xA9F0, 0xAA50, 0xABF0,
   0xFF10, 0x104A0, 0x10D30, 0x11066, 0x110F0, 0x11136, 0x111D0, 0x112F0, 0x11450, 0x114D0,
   0x11650, 0x116C0, 0x11730, 0x118E0, 0x11950, 0x11C50, 0x11D50, 0x11DA0, 0x16A60, 0x16AC0,
   0x16B50, 0x1D7CE, 0x1D7D8, 0x1D7E2, 0x1D7EC, 0x1D7F6, 0x1E140, 0x1E2F0, 0x1E950, 0x1FBF0]

/-- The value of a decimal digit of any script. -/
def digitValue? (c : Char) : Option Nat :=
  (digitZeros.find? fun z => z ≤ c.toNat && c.toNat < z + 10).map (c.toNat - ·)

/-- The number denoted by digit values, most significant first. -/
def ofDigits (digits : List Nat) : Nat := digits.foldl (fun n d => 10 * n + d) 0

/-- The digits that a text starts with, as values, and what follows them. -/
def digitRun : List Char → List Nat × List Char
  | [] => ([], [])
  | c :: cs =>
    match digitValue? c with
    | some d =>
      let run := digitRun cs
      (d :: run.1, run.2)
    | none => ([], c :: cs)

/-- The decimal digits of a natural number. -/
def decimalDigits (n : Nat) : List Char := Nat.toDigits 10 n

/-- The number of digits of `n`, counted `step` digits at a time for as long as the fuel
lasts. -/
def digitCountWithin (step : Nat) : Nat → Nat → Nat
  | 0, n => (decimalDigits n).length
  | fuel + 1, n =>
    if n < 10 ^ step then (decimalDigits n).length
    else step + digitCountWithin step fuel (n / 10 ^ step)

/-- How many decimal digits a natural number has.  Sixteen are counted at a time, which
matters for numbers of a thousand digits. -/
def digitCount (n : Nat) : Nat := digitCountWithin 16 n.log2 n

/-- A number with more than `k` digits has `k` digits fewer when the last `k` are cut off. -/
theorem length_decimalDigits_div {k n : Nat} (h : 10 ^ k ≤ n) :
    (decimalDigits n).length = k + (decimalDigits (n / 10 ^ k)).length := by
  induction k generalizing n with
  | zero => simp
  | succ k ih =>
    have hk : 10 ^ k ≤ n / 10 := by
      rw [Nat.le_div_iff_mul_le (by decide), ← Nat.pow_succ]
      exact h
    have hten : 10 ≤ n := by
      have hpos : 0 < 10 ^ k := Nat.pow_pos (by decide)
      omega
    have hdiv : n / 10 ^ (k + 1) = n / 10 / 10 ^ k := by
      rw [Nat.div_div_eq_div_mul, Nat.pow_succ, Nat.mul_comm]
    rw [decimalDigits, Nat.toDigits_of_base_le (by decide) hten, List.length_append, hdiv]
    have := ih hk
    simp only [decimalDigits, List.length_singleton] at this ⊢
    omega

/-- Counting several digits at a time finds the number of digits. -/
theorem digitCountWithin_eq (step fuel n : Nat) :
    digitCountWithin step fuel n = (decimalDigits n).length := by
  induction fuel generalizing n with
  | zero => rfl
  | succ fuel ih =>
    simp only [digitCountWithin]
    split
    · rfl
    · next h => rw [ih, ← length_decimalDigits_div (by omega)]

/-- The count is the number of digits. -/
theorem digitCount_eq (n : Nat) : digitCount n = (decimalDigits n).length :=
  digitCountWithin_eq 16 n.log2 n

/-- A natural number in decimal. -/
def natText (n : Nat) : String := String.ofList (decimalDigits n)

/-- An integer in decimal, a minus before those below zero. -/
def intText (n : Int) : String := if n < 0 then "-" ++ natText n.natAbs else natText n.natAbs

end Lamlet.Text
