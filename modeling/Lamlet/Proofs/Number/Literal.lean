import Lamlet.Proofs.Number.Rounding
import Lamlet.Token.Scan
import Mathlib.Data.List.TakeWhile

/-!
# Number literals denote their numbers

The literal of a magnitude is laid out as a numeral: digits, and more digits after a
point.  The numeral denotes the same rational number as the decimal that it lays out, so
it is read as the magnitude that it was written for.

## Main definitions

* `Decimal.numeral` — digits with a point, as a numeral.
* `Magnitude.numeral` — the literal of a magnitude, as a numeral.
* `Numeral.Plain` — only digits occur, and there is one before the point.

## Main results

* `Magnitude.lexeme_numeral` — the characters of the numeral are the literal.
* `Magnitude.value_numeral` — the numeral is read as the magnitude.
-/

namespace Lamlet

open Text

/-! ### The value of a numeral -/

/-- The digit values of characters denote what the characters do. -/
theorem ofDigits_map_digit (cs : List Char) :
    ofDigits (cs.map Numeral.digit) = Nat.ofDigitChars 10 cs 0 := by
  rw [ofDigits, List.foldl_map, Nat.ofDigitChars_eq_foldl]
  rfl

namespace Numeral

/-- A numeral that consists of digits, at least one before the point. -/
structure Plain (n : Numeral) : Prop where
  /-- There is a digit before the point. -/
  whole_ne_nil : n.whole ≠ []
  /-- Before the point there are digits only. -/
  isDigit_whole : ∀ c ∈ n.whole, c.isDigit = true
  /-- After the point there are digits only. -/
  isDigit_fraction : ∀ c ∈ n.fraction.getD [], c.isDigit = true

/-- A numeral denotes its digits, shifted by those after the point. -/
theorem value_decimal (n : Numeral) :
    n.decimal.value
      = Nat.ofDigitChars 10 (n.whole ++ n.fraction.getD []) 0
        * 10 ^ (-(n.fraction.getD []).length : ℤ) := by
  rw [Decimal.value, decimal, Decimal.ofParts, ← List.map_append, ofDigits_map_digit,
    List.length_map, zero_sub]

end Numeral

/-! ### Digits with a point -/

namespace Decimal

/-- Digits with the point after the first `place` of them, filled up with zeros. -/
def numeral (digits : List Char) (place : Int) : Numeral :=
  if place ≤ 0 then ⟨['0'], some (List.replicate (-place).toNat '0' ++ digits)⟩
  else if place < digits.length then ⟨digits.take place.toNat, some (digits.drop place.toNat)⟩
  else ⟨digits ++ List.replicate (place.toNat - digits.length) '0', some ['0']⟩

theorem lexeme_numeral (digits : List Char) (place : Int) :
    (numeral digits place).lexeme = layPositional digits place := by
  unfold numeral layPositional
  split
  · rfl
  · split
    · rfl
    · simp [Numeral.lexeme]

/-- Where the point stands settles the power of ten. -/
theorem value_numeral (digits : List Char) (place : Int) :
    (numeral digits place).decimal.value
      = Nat.ofDigitChars 10 digits 0 * 10 ^ (place - digits.length) := by
  rw [Numeral.value_decimal]
  unfold numeral
  split
  · next h =>
    -- the point stands before all digits, with zeros between
    have hzeros : Nat.ofDigitChars 10 ['0'] 0 = 0 := rfl
    have hexp : -((List.replicate (-place).toNat '0' ++ digits).length : ℤ)
        = place - digits.length := by
      rw [List.length_append, List.length_replicate]
      omega
    simp only [Option.getD_some]
    rw [hexp, Nat.ofDigitChars_append, Nat.ofDigitChars_append, hzeros,
      Nat.ofDigitChars_replicate_zero, Nat.mul_zero]
  · split
    · -- the point stands among the digits
      have hexp : -((digits.drop place.toNat).length : ℤ) = place - digits.length := by
        rw [List.length_drop]
        omega
      simp only [Option.getD_some]
      rw [hexp, List.take_append_drop]
    · next hpos hlen =>
      -- the point stands behind all digits, with zeros before it and one behind it
      have hexp : place - digits.length
          = ((place.toNat - digits.length + 1 : ℕ) : ℤ) + -(['0'].length : ℤ) := by
        simp only [List.length_cons, List.length_nil]
        omega
      have hone : ['0'] = List.replicate 1 '0' := rfl
      simp only [Option.getD_some]
      rw [hexp, zpow_add₀ (by norm_num), zpow_natCast, hone, List.append_assoc,
        List.replicate_append_replicate, Nat.ofDigitChars_append, Nat.ofDigitChars_replicate_zero]
      push_cast
      ring

theorem plain_numeral {digits : List Char} (place : Int)
    (h : ∀ c ∈ digits, c.isDigit = true) : (numeral digits place).Plain := by
  have hzeros : ∀ n, ∀ c ∈ List.replicate n '0', c.isDigit = true := by
    intro n c hc
    rw [List.eq_of_mem_replicate hc]
    rfl
  unfold numeral
  split
  · refine ⟨by simp, by simp, ?_⟩
    simp only [Option.getD_some, List.mem_append]
    rintro c (hc | hc)
    · exact hzeros _ c hc
    · exact h c hc
  · split
    · next hpos hlen =>
      refine ⟨?_, fun c hc => h c (List.mem_of_mem_take hc),
        fun c hc => h c (List.mem_of_mem_drop hc)⟩
      refine List.ne_nil_of_length_pos ?_
      rw [List.length_take]
      omega
    · next hpos hlen =>
      refine ⟨?_, ?_, by simp⟩
      · refine List.ne_nil_of_length_pos ?_
        rw [List.length_append, List.length_replicate]
        omega
      · simp only [List.mem_append]
        rintro c (hc | hc)
        · exact h c hc
        · exact hzeros _ c hc

/-! ### Digits that count -/

/-- A decimal has its significant digits and then zeros only. -/
theorem decimalDigits_eq_significant (d : Decimal) :
    ∃ zeros, decimalDigits d.digits = d.significant ++ List.replicate zeros '0' := by
  have hzeros : ∀ c ∈ (decimalDigits d.digits).reverse.takeWhile (· = '0'), c = '0' := by
    intro c hc
    simpa using List.mem_takeWhile_imp hc
  refine ⟨((decimalDigits d.digits).reverse.takeWhile (· = '0')).length, ?_⟩
  rw [← List.reverse_inj, List.reverse_append, List.reverse_replicate, significant,
    List.reverse_reverse, ← List.eq_replicate_of_mem hzeros, List.takeWhile_append_dropWhile]

/-- The significant digits and the leading place denote the decimal. -/
theorem value_significant (d : Decimal) :
    (Nat.ofDigitChars 10 d.significant 0 : ℚ) * 10 ^ (d.leadingPlace - d.significant.length)
      = d.value := by
  obtain ⟨zeros, hz⟩ := d.decimalDigits_eq_significant
  -- the zeros at the end that are left out count as powers of ten
  have hdigits : d.digits = 10 ^ zeros * Nat.ofDigitChars 10 d.significant 0 := by
    rw [← Nat.ofDigitChars_replicate_zero, ← Nat.ofDigitChars_append, ← hz, decimalDigits,
      Nat.ofDigitChars_ten_toDigits]
  have hplace : d.leadingPlace - d.significant.length = (zeros : ℤ) + d.exponent := by
    rw [leadingPlace, digitCount_eq, hz, List.length_append, List.length_replicate]
    push_cast
    ring
  rw [hplace, zpow_add₀ (by norm_num), zpow_natCast, value]
  conv_rhs => rw [hdigits]
  push_cast
  ring

theorem isDigit_of_mem_significant (d : Decimal) : ∀ c ∈ d.significant, c.isDigit = true := by
  intro c hc
  obtain ⟨zeros, hz⟩ := d.decimalDigits_eq_significant
  have hmem : c ∈ decimalDigits d.digits := by
    rw [hz]
    exact List.mem_append_left _ hc
  exact Nat.isDigit_of_mem_toDigits (by decide) (by decide) hmem

end Decimal

/-! ### Literals of magnitudes -/

namespace Magnitude

/-- The literal of a magnitude as a numeral. -/
def numeral (a : Magnitude) : Numeral :=
  if a.isWhole then ⟨decimalDigits a.wholePart, none⟩
  else Decimal.numeral a.shortest.significant a.shortest.leadingPlace

/-- The characters of the numeral are the literal. -/
theorem lexeme_numeral (a : Magnitude) : a.numeral.lexeme = a.plainText := by
  unfold numeral plainText
  split
  · rfl
  · exact Decimal.lexeme_numeral _ _

theorem plain_numeral (a : Magnitude) : a.numeral.Plain := by
  unfold numeral
  split
  · exact ⟨Nat.toDigits_ne_nil,
      fun c hc => Nat.isDigit_of_mem_toDigits (by decide) (by decide) hc, by simp⟩
  · exact Decimal.plain_numeral _ a.shortest.isDigit_of_mem_significant

/-- A whole magnitude has a whole number of ones. -/
theorem units_of_isWhole {a : Magnitude} (h : a.isWhole = true) :
    a.units = a.wholePart * 2 ^ unitBits := by
  have hmod : a.units % unitsPerOne = 0 := by simpa [isWhole] using h
  exact (Nat.div_mul_cancel (Nat.dvd_of_mod_eq_zero hmod)).symm

/-- The literal of a whole magnitude denotes it exactly. -/
theorem value_numeral_of_isWhole {a : Magnitude} (h : a.isWhole = true) :
    a.numeral.decimal.value = a.value := by
  have hdigits : Nat.ofDigitChars 10 (decimalDigits a.wholePart) 0 = a.wholePart :=
    Nat.ofDigitChars_ten_toDigits
  rw [numeral, if_pos h, Numeral.value_decimal, value, units_of_isWhole h]
  simp only [Option.getD_none, List.append_nil, hdigits, List.length_nil, Nat.cast_zero,
    neg_zero, zpow_zero, mul_one]
  rw [Nat.cast_mul, Nat.cast_pow, Nat.cast_ofNat,
    mul_div_cancel_right₀ _ (pow_ne_zero _ two_ne_zero)]

/-- Any other literal denotes the decimal with the fewest digits. -/
theorem value_numeral_of_not_isWhole {a : Magnitude} (h : a.isWhole ≠ true) :
    a.numeral.decimal.value = a.shortest.value := by
  rw [numeral, if_neg h, Decimal.value_numeral, Decimal.value_significant]

theorem nearest?_numeral (a : Magnitude) : a.numeral.decimal.nearest? = some a := by
  by_cases hwhole : a.isWhole = true
  · exact Decimal.nearest?_of_value_eq (value_numeral_of_isWhole hwhole)
  · -- the digits that are laid out denote the shortest decimal, which reads back
    rw [Decimal.nearest?_congr (value_numeral_of_not_isWhole hwhole), a.nearest?_shortest]

/-- **The literal of a magnitude is read as the magnitude.** -/
theorem value_numeral (a : Magnitude) : a.numeral.value = .finite false a := by
  rw [Numeral.value, Decimal.toNumber, a.nearest?_numeral]

end Magnitude

end Lamlet
