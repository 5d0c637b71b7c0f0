/-!
# Magnitudes

The absolute value of a finite binary64 number is a natural multiple of the
least positive one, `2⁻¹⁰⁷⁴`.  A `Magnitude` is that multiple, so arithmetic on
magnitudes is arithmetic on natural numbers followed by one rounding step.

## Main definitions

* `roundDiv num den` — the natural number nearest to `num / den`, a tie going to
  the even neighbour.
* `Representable units` — `units` is below the overflow bound and has at most 53
  significant bits.
* `Magnitude` — a representable number of units.
* `Magnitude.round? num den` — the magnitude nearest to `num / den` units, or
  `none` on overflow.
* `Magnitude.mod` — the remainder of two magnitudes, which is always exact.

## Main results

* `representable_mul_two_pow` — a mantissa of at most `2⁵³`, shifted, is
  representable below the overflow bound.
* `Representable.mod` — remainders of representable numbers are representable.
-/

namespace Lamlet

-- powers of natural numbers are the built-in ones, whatever else is in scope
attribute [local instance(10000)] instPowNat

/-! ### Rounding a quotient -/

/-- The natural number nearest to `num / den`; when two are equally near, the
even one. -/
def roundDiv (num den : Nat) : Nat :=
  let low := num / den
  let left := num % den
  if den < 2 * left ∨ (2 * left = den ∧ low % 2 = 1) then low + 1 else low

/-- Rounding moves the quotient up by at most one. -/
theorem roundDiv_le (num den : Nat) : roundDiv num den ≤ num / den + 1 := by
  simp only [roundDiv]
  split <;> omega

/-- Rounding never goes below the quotient. -/
theorem div_le_roundDiv (num den : Nat) : num / den ≤ roundDiv num den := by
  simp only [roundDiv]
  split <;> omega

/-- A quotient without remainder is not changed by rounding. -/
theorem roundDiv_mul_left (m : Nat) {den : Nat} (h : 0 < den) : roundDiv (m * den) den = m := by
  simp only [roundDiv, Nat.mul_mod_left, Nat.mul_div_cancel _ h]
  split <;> omega

/-! ### Representable numbers of units -/

/-- One is this power of two, in units. -/
def unitBits : Nat := 1074

/-- The first power of two past the finite numbers is this one, in units. -/
def overflowBits : Nat := 2098

/-- The number of units in the number one. -/
def unitsPerOne : Nat := 2 ^ unitBits

/-- The least number of units that is too large for a finite number. -/
def overflowUnits : Nat := 2 ^ overflowBits

/-- The place of the last significant bit of `units`: 53 bits are kept, and below
`2⁵³` every bit counts. -/
def lastBit (units : Nat) : Nat := units.log2 - 52

/-- A number of units is representable when it is below the overflow bound and a
multiple of the weight of its last significant bit. -/
def Representable (units : Nat) : Prop :=
  units < overflowUnits ∧ 2 ^ lastBit units ∣ units

/-- The last significant bit moves up with the number. -/
theorem lastBit_mono {a b : Nat} (h : a ≤ b) : lastBit a ≤ lastBit b := by
  rcases Nat.eq_zero_or_pos a with rfl | ha
  · simp [lastBit]
  · have hb : b ≠ 0 := by omega
    have : 2 ^ a.log2 ≤ b := Nat.le_trans (Nat.log2_self_le (by omega)) h
    have := (Nat.le_log2 hb).2 this
    simp only [lastBit]
    omega

/-- A mantissa below `2⁵³`, shifted by `k`, keeps its last bit at or below `k`. -/
theorem lastBit_mul_two_pow_le {m : Nat} (k : Nat) (h : m < 2 ^ (53 : Nat)) :
    lastBit (m * 2 ^ k) ≤ k := by
  rcases Nat.eq_zero_or_pos m with rfl | hm
  · simp [lastBit]
  · have hne : m * 2 ^ k ≠ 0 := Nat.mul_ne_zero (by omega) (by simp)
    have hlt : m * 2 ^ k < 2 ^ (53 + k) := by
      rw [Nat.pow_add]
      exact Nat.mul_lt_mul_of_pos_right h (Nat.two_pow_pos k)
    have := (Nat.log2_lt hne).2 hlt
    simp only [lastBit]
    omega

/-- A mantissa of at most `2⁵³`, shifted, is a multiple of the weight of its last
significant bit.  The carry to `2⁵³` itself moves that bit up by one. -/
theorem two_pow_lastBit_dvd {m : Nat} (k : Nat) (h : m ≤ 2 ^ (53 : Nat)) :
    2 ^ lastBit (m * 2 ^ k) ∣ m * 2 ^ k := by
  rcases Nat.lt_or_eq_of_le h with hlt | rfl
  · exact Nat.dvd_trans (Nat.pow_dvd_pow 2 (lastBit_mul_two_pow_le k hlt)) (Nat.dvd_mul_left _ _)
  · rw [← Nat.pow_add]
    refine Nat.pow_dvd_pow 2 ?_
    simp only [lastBit, Nat.log2_two_pow]
    omega

/-- The overflow bound is positive. -/
theorem overflowUnits_pos : 0 < overflowUnits :=
  Nat.two_pow_pos overflowBits

/-- Zero is representable. -/
theorem representable_zero : Representable 0 :=
  ⟨overflowUnits_pos, Nat.dvd_zero _⟩

/-- **A mantissa of at most `2⁵³`, shifted, is representable below the overflow
bound.** -/
theorem representable_mul_two_pow {m k : Nat} (hm : m ≤ 2 ^ (53 : Nat))
    (hlt : m * 2 ^ k < overflowUnits) : Representable (m * 2 ^ k) :=
  ⟨hlt, two_pow_lastBit_dvd k hm⟩

/-- **Remainders of representable numbers are representable.**  If the dividend is
the smaller one it is the remainder; otherwise both are multiples of the divisor's
last bit, and the remainder is smaller than the divisor. -/
theorem Representable.mod {a b : Nat} (ha : Representable a) (hb : Representable b) :
    Representable (a % b) := by
  rcases Nat.lt_or_ge a b with hlt | hge
  · rwa [Nat.mod_eq_of_lt hlt]
  · rcases Nat.eq_zero_or_pos b with rfl | hpos
    · rwa [Nat.mod_zero]
    · have hr : a % b < b := Nat.mod_lt a hpos
      refine ⟨Nat.lt_trans hr hb.1, ?_⟩
      have hab : 2 ^ lastBit b ∣ a :=
        Nat.dvd_trans (Nat.pow_dvd_pow 2 (lastBit_mono hge)) ha.2
      exact Nat.dvd_trans (Nat.pow_dvd_pow 2 (lastBit_mono (Nat.le_of_lt hr)))
        ((Nat.dvd_mod_iff hb.2).2 hab)

/-- The number one is representable. -/
theorem representable_unitsPerOne : Representable unitsPerOne := by
  have h : 1 * 2 ^ unitBits < overflowUnits := by
    rw [overflowUnits, Nat.one_mul]
    exact Nat.pow_lt_pow_right (by decide) (by decide)
  rw [unitsPerOne, ← Nat.one_mul (2 ^ unitBits)]
  exact representable_mul_two_pow (by decide) h

/-! ### Magnitudes -/

/-- The absolute value of a finite number, in units of `2⁻¹⁰⁷⁴`. -/
structure Magnitude where
  /-- How many units. -/
  units : Nat
  /-- Only numbers with at most 53 significant bits occur. -/
  representable : Representable units
  deriving DecidableEq, Repr

namespace Magnitude

/-- The magnitude of zero. -/
def zero : Magnitude := ⟨0, representable_zero⟩

/-- The magnitude of one. -/
def one : Magnitude := ⟨unitsPerOne, representable_unitsPerOne⟩

instance : Inhabited Magnitude := ⟨zero⟩

/-- Magnitudes with equally many units are equal. -/
@[ext]
theorem ext {a b : Magnitude} (h : a.units = b.units) : a = b := by
  cases a; cases b; simp_all

/-- The place of the last bit kept when `num / den` is rounded. -/
def roundingBit (num den : Nat) : Nat := lastBit (num / den)

/-- The mantissa that `num / den` rounds to, counted in its last kept bit. -/
def mantissa (num den : Nat) : Nat := roundDiv num (den * 2 ^ roundingBit num den)

/-- The mantissa of a rounded quotient has at most 53 bits, or is `2⁵³` after a
carry. -/
theorem mantissa_le (num den : Nat) : mantissa num den ≤ 2 ^ (53 : Nat) := by
  have hdiv : num / (den * 2 ^ roundingBit num den) < 2 ^ (53 : Nat) := by
    rw [← Nat.div_div_eq_div_mul, Nat.div_lt_iff_lt_mul (Nat.two_pow_pos _), ← Nat.pow_add]
    refine Nat.lt_of_lt_of_le Nat.lt_log2_self (Nat.pow_le_pow_right (by decide) ?_)
    simp only [roundingBit, lastBit]
    omega
  exact Nat.le_trans (roundDiv_le _ _) hdiv

/-- The magnitude nearest to `num / den` units, a tie going to the even mantissa;
`none` when that is past the largest finite number. -/
def round? (num den : Nat) : Option Magnitude :=
  let units := mantissa num den * 2 ^ roundingBit num den
  if h : units < overflowUnits then
    some ⟨units, representable_mul_two_pow (mantissa_le num den) h⟩
  else
    none

/-- The exact remainder of two magnitudes. -/
def mod (a b : Magnitude) : Magnitude :=
  ⟨a.units % b.units, a.representable.mod b.representable⟩

/-- Whether the magnitude is a whole number. -/
def isWhole (a : Magnitude) : Bool := a.units % unitsPerOne == 0

/-- The whole part of a magnitude. -/
def wholePart (a : Magnitude) : Nat := a.units / unitsPerOne

end Magnitude

end Lamlet
