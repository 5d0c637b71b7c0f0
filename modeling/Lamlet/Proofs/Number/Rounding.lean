import Lamlet.Number.Shortest
import Mathlib.Algebra.Order.Field.Power
import Mathlib.Data.Rat.Cast.Order
import Mathlib.Tactic.FieldSimp
import Mathlib.Tactic.Linarith
import Mathlib.Tactic.Ring

/-!
# Rounding depends on the value alone

A decimal denotes a rational number and so does a magnitude.  Which magnitude a decimal
is read as depends on that rational only, not on how many digits it is written with; a
decimal that denotes a magnitude exactly is read as that magnitude, and so is the
decimal with the fewest digits.

## Main definitions

* `Decimal.value`, `Magnitude.value` — the rational number denoted.

## Main results

* `Magnitude.round?_congr` — equal quotients round to the same magnitude.
* `Decimal.nearest?_congr` — decimals of one value are read alike.
* `Decimal.nearest?_of_value_eq` — the exact decimal of a magnitude is read as it.
* `Magnitude.nearest?_shortest` — so is the shortest one.
-/

namespace Lamlet

open Text

/-! ### Quotients -/

/-- Rounding a quotient does not see a common factor. -/
theorem roundDiv_mul_mul (num den : Nat) {k : Nat} (hk : 0 < k) :
    roundDiv (num * k) (den * k) = roundDiv num den := by
  have hlt : den * k < 2 * (num % den * k) ↔ den < 2 * (num % den) := by
    rw [← Nat.mul_assoc, Nat.mul_lt_mul_right hk]
  have heq : 2 * (num % den * k) = den * k ↔ 2 * (num % den) = den := by
    rw [← Nat.mul_assoc, Nat.mul_left_inj (by omega)]
  simp only [roundDiv, Nat.mul_div_mul_right _ _ hk, Nat.mul_mod_mul_right, hlt, heq]

namespace Magnitude

theorem roundingBit_mul_mul (num den : Nat) {k : Nat} (hk : 0 < k) :
    roundingBit (num * k) (den * k) = roundingBit num den := by
  rw [roundingBit, Nat.mul_div_mul_right _ _ hk, roundingBit]

theorem mantissa_mul_mul (num den : Nat) {k : Nat} (hk : 0 < k) :
    mantissa (num * k) (den * k) = mantissa num den := by
  rw [mantissa, roundingBit_mul_mul num den hk, Nat.mul_right_comm, roundDiv_mul_mul _ _ hk,
    mantissa]

/-- What a quotient rounds to is settled by its mantissa and its last kept bit. -/
theorem round?_eq_of_parts {num den num' den' : Nat}
    (hm : mantissa num den = mantissa num' den')
    (hb : roundingBit num den = roundingBit num' den') : round? num den = round? num' den' := by
  simp only [round?, hm, hb]

theorem round?_mul_mul (num den : Nat) {k : Nat} (hk : 0 < k) :
    round? (num * k) (den * k) = round? num den :=
  round?_eq_of_parts (mantissa_mul_mul num den hk) (roundingBit_mul_mul num den hk)

/-- **Equal quotients round to the same magnitude.** -/
theorem round?_congr {num den num' den' : Nat} (hden : 0 < den) (hden' : 0 < den')
    (h : num * den' = num' * den) : round? num den = round? num' den' := by
  rw [← round?_mul_mul num den hden', h, Nat.mul_comm den den', round?_mul_mul num' den' hden]

/-- A whole number of representable units is not changed by rounding. -/
theorem round?_units (a : Magnitude) {den : Nat} (hden : 0 < den) :
    round? (a.units * den) den = some a := by
  obtain ⟨m, hm⟩ := a.representable.2
  have hbit : roundingBit (a.units * den) den = lastBit a.units := by
    rw [roundingBit, Nat.mul_div_cancel _ hden]
  -- no bit is cut off, so the mantissa is not rounded
  have hmantissa : mantissa (a.units * den) den = m := by
    have hpos : 0 < den * 2 ^ lastBit a.units := Nat.mul_pos hden (Nat.two_pow_pos _)
    have hnum : a.units * den = m * (den * 2 ^ lastBit a.units) := by
      conv_lhs => rw [hm]
      ring
    rw [mantissa, hbit, hnum, roundDiv_mul_left _ hpos]
  have hunits : mantissa (a.units * den) den * 2 ^ roundingBit (a.units * den) den = a.units := by
    rw [hmantissa, hbit, Nat.mul_comm, ← hm]
  rw [round?, dif_pos (by rw [hunits]; exact a.representable.1)]
  exact congrArg some (Magnitude.ext hunits)

/-- The rational number that a magnitude is. -/
def value (a : Magnitude) : ℚ := a.units / 2 ^ unitBits

/-- The overflow bound lies below `10³⁰⁹`. -/
theorem overflowUnits_le : overflowUnits ≤ 10 ^ 309 * 2 ^ unitBits := by decide +kernel

/-- The least magnitude lies above `10⁻³³⁰`. -/
theorem two_pow_unitBits_lt : 2 ^ unitBits < 10 ^ 330 := by decide +kernel

theorem value_lt (a : Magnitude) : a.value < 10 ^ 309 := by
  have hunits : a.units < 10 ^ 309 * 2 ^ unitBits :=
    lt_of_lt_of_le a.representable.1 overflowUnits_le
  rw [value, div_lt_iff₀ (by positivity)]
  exact_mod_cast hunits

theorem lt_value {a : Magnitude} (h : a.units ≠ 0) : ((10 : ℚ) ^ 330)⁻¹ < a.value := by
  have hunits : 2 ^ unitBits < a.units * 10 ^ 330 :=
    lt_of_lt_of_le two_pow_unitBits_lt (Nat.le_mul_of_pos_left _ (by omega))
  rw [value, inv_eq_one_div, div_lt_div_iff₀ (by positivity) (by positivity), one_mul]
  exact_mod_cast hunits

end Magnitude

/-! ### Decimals -/

namespace Decimal

/-- The rational number that a decimal denotes. -/
def value (d : Decimal) : ℚ := d.digits * 10 ^ d.exponent

theorem value_eq_zero_iff {d : Decimal} : d.value = 0 ↔ d.digits = 0 := by
  simp [value, zpow_ne_zero]

/-- The power of ten of an exponent of either sign, as a fraction of natural numbers. -/
theorem ten_zpow_eq (e : ℤ) : (10 : ℚ) ^ e = 10 ^ e.toNat / 10 ^ (-e).toNat := by
  rw [← zpow_natCast, ← zpow_natCast, ← zpow_sub₀ (by norm_num)]
  congr 1
  omega

/-- Decimals of one value round to the same magnitude. -/
theorem round?_congr {d d' : Decimal} (h : d.value = d'.value) : d.round? = d'.round? := by
  refine Magnitude.round?_congr (Nat.pow_pos (by decide)) (Nat.pow_pos (by decide)) ?_
  rw [value, value, ten_zpow_eq, ten_zpow_eq, ← mul_div_assoc, ← mul_div_assoc,
    div_eq_div_iff (by positivity) (by positivity)] at h
  have hcross : d.digits * 10 ^ d.exponent.toNat * 10 ^ (-d'.exponent).toNat
      = d'.digits * 10 ^ d'.exponent.toNat * 10 ^ (-d.exponent).toNat := by exact_mod_cast h
  rw [Nat.mul_right_comm, hcross, Nat.mul_right_comm]

/-! ### The leading place -/

theorem lt_ten_pow_digitCount (n : Nat) : n < 10 ^ digitCount n := by
  rw [digitCount_eq]
  exact (Nat.length_toDigits_le_iff (by decide) Nat.length_toDigits_pos).1 le_rfl

theorem ten_pow_digitCount_le {n : Nat} (h : n ≠ 0) : 10 ^ (digitCount n - 1) ≤ n := by
  rw [digitCount_eq]
  rcases Nat.eq_zero_or_pos ((decimalDigits n).length - 1) with hzero | hpos
  · rw [hzero]
    omega
  · by_contra hlt
    have hle := (Nat.length_toDigits_le_iff (b := 10) (by decide) hpos).2 (not_le.1 hlt)
    rw [decimalDigits] at hle hpos
    omega

theorem digitCount_pos (n : Nat) : 0 < digitCount n := by
  rw [digitCount_eq]
  exact Nat.length_toDigits_pos

/-- A decimal that is not zero lies between the powers of ten next to its leading
place. -/
theorem value_bounds {d : Decimal} (h : d.digits ≠ 0) :
    (10 : ℚ) ^ (d.leadingPlace - 1) ≤ d.value ∧ d.value < 10 ^ d.leadingPlace := by
  have hplace : d.leadingPlace - 1 = ((digitCount d.digits - 1 : ℕ) : ℤ) + d.exponent := by
    have := digitCount_pos d.digits
    simp only [leadingPlace]
    omega
  have hpos : (0 : ℚ) < 10 ^ d.exponent := by positivity
  constructor
  · rw [hplace, zpow_add₀ (by norm_num), zpow_natCast, value]
    refine mul_le_mul_of_nonneg_right ?_ hpos.le
    exact_mod_cast ten_pow_digitCount_le h
  · rw [leadingPlace, add_comm, zpow_add₀ (by norm_num), zpow_natCast, value]
    refine mul_lt_mul_of_pos_right ?_ hpos
    exact_mod_cast lt_ten_pow_digitCount d.digits

/-- The leading place belongs to the value. -/
theorem leadingPlace_le {d d' : Decimal} (hd : d.digits ≠ 0) (hd' : d'.digits ≠ 0)
    (h : d.value = d'.value) : d.leadingPlace ≤ d'.leadingPlace := by
  have hlt := lt_of_le_of_lt (value_bounds hd).1 (h ▸ (value_bounds hd').2)
  have := (zpow_lt_zpow_iff_right₀ (by norm_num : (1 : ℚ) < 10)).1 hlt
  omega

/-- **Decimals of one value are read alike.** -/
theorem nearest?_congr {d d' : Decimal} (h : d.value = d'.value) : d.nearest? = d'.nearest? := by
  have hzero : d.digits = 0 ↔ d'.digits = 0 := by
    rw [← value_eq_zero_iff, h, value_eq_zero_iff]
  by_cases hd : d.digits = 0
  · rw [nearest?, nearest?, if_pos hd, if_pos (hzero.1 hd)]
  · have hd' : d'.digits ≠ 0 := fun hd' => hd (hzero.2 hd')
    have hplace : d.leadingPlace = d'.leadingPlace :=
      le_antisymm (leadingPlace_le hd hd' h) (leadingPlace_le hd' hd h.symm)
    rw [nearest?, nearest?, if_neg hd, if_neg hd', hplace, round?_congr h]

/-- **A decimal that denotes a magnitude exactly is read as that magnitude.** -/
theorem nearest?_of_value_eq {d : Decimal} {a : Magnitude} (h : d.value = a.value) :
    d.nearest? = some a := by
  by_cases hd : d.digits = 0
  · have hunits : a.units = 0 := by
      have hzero : a.value = 0 := h ▸ value_eq_zero_iff.2 hd
      simpa [Magnitude.value] using hzero
    rw [nearest?, if_pos hd]
    exact congrArg some (Magnitude.ext hunits.symm)
  · have hunits : a.units ≠ 0 := by
      intro hzero
      refine hd (value_eq_zero_iff.1 ?_)
      rw [h, Magnitude.value, hzero]
      simp
    -- the magnitude lies strictly inside the range where powers of ten are computed
    have hhigh : d.leadingPlace ≤ 310 := by
      have hlt := lt_of_le_of_lt (value_bounds hd).1 (h ▸ a.value_lt)
      rw [← zpow_natCast, zpow_lt_zpow_iff_right₀ (by norm_num)] at hlt
      omega
    have hlow : -330 ≤ d.leadingPlace := by
      have hlt := lt_trans (Magnitude.lt_value hunits) (h ▸ (value_bounds hd).2)
      rw [← zpow_natCast, ← zpow_neg, zpow_lt_zpow_iff_right₀ (by norm_num)] at hlt
      omega
    rw [nearest?, if_neg hd, if_neg (by omega), if_neg (by omega), round?,
      ← a.round?_units (Nat.pow_pos (by decide) : 0 < 10 ^ (-d.exponent).toNat)]
    refine Magnitude.round?_congr (Nat.pow_pos (by decide)) (Nat.pow_pos (by decide)) ?_
    rw [value, ten_zpow_eq, Magnitude.value, ← mul_div_assoc,
      div_eq_div_iff (by positivity) (by positivity)] at h
    have hcross : d.digits * 10 ^ d.exponent.toNat * 2 ^ unitBits
        = a.units * 10 ^ (-d.exponent).toNat := by exact_mod_cast h
    rw [unitsPerOne, hcross]

end Decimal

/-! ### Fewest digits -/

namespace Magnitude

theorem value_toDecimal (a : Magnitude) : a.toDecimal.value = a.value := by
  have htwo : (10 : ℚ) ^ unitBits = 5 ^ unitBits * 2 ^ unitBits := by
    rw [← mul_pow]
    norm_num
  rw [Decimal.value, toDecimal, value, zpow_neg, zpow_natCast, htwo]
  push_cast
  field_simp

theorem nearest?_of_decimalAt? {a : Magnitude} {exact d : Decimal} {drop : Nat}
    (h : a.decimalAt? exact drop = some d) : d.nearest? = some a := by
  obtain ⟨digits, -, hd⟩ := List.exists_of_findSome?_eq_some h
  simp only [Option.ite_none_right_eq_some, Option.some.injEq] at hd
  obtain ⟨hread, rfl⟩ := hd
  simpa [isReadFrom] using hread

/-- **The decimal with the fewest digits is read as the magnitude.**  Up to seventeen digits are
tried, and each attempt is read back before it is taken; if none were good, all digits of the
magnitude would be, which denote it exactly. -/
theorem nearest?_shortest (a : Magnitude) : a.shortest.nearest? = some a := by
  simp only [shortest]
  cases hfound : (List.range 17).findSome? fun n =>
      a.decimalAt? a.toDecimal (digitCount a.toDecimal.digits - (n + 1)) with
  | none => exact Decimal.nearest?_of_value_eq a.value_toDecimal
  | some d =>
    obtain ⟨n, -, hn⟩ := List.exists_of_findSome?_eq_some hfound
    exact nearest?_of_decimalAt? hn

end Magnitude

end Lamlet
