import Lamlet.Proofs.Number.Literal
import Lamlet.Proofs.Number.Numeric

/-!
# The text of a number is read back

A number is written in one of four forms: the digits of a whole number, digits with a point,
digits with a point and an exponent, and `Infinity`.  Each of them is a numeral, and denotes a
decimal that is read as the number.  So a number equals its own text, but for `nan`.

## Main definitions

* `Magnitude.Writes` — a text is a numeral without a sign that is read as a magnitude.

## Main results

* `Decimal.isNumeric_positional`, `Decimal.isNumeric_scientific` — both layouts of a decimal
  denote it.
* `Magnitude.writes_text`, `Magnitude.writes_wholePart` — the full text of a magnitude and the
  digits of a whole one are read as the magnitude.
* `Number.text_injective` — **different numbers have different full texts.**
* `IsNumeric.trim_eq` — there are no blanks around a numeral.
* `Value.shown_reads_back` — **a number that is shown is read back**, and equals its text.
-/

namespace Lamlet

open Text

/-! ### Digits from zero to nine -/

theorem digitValue?_of_isDigit {c : Char} (h : c.isDigit = true) :
    digitValue? c = some (Numeral.digit c) := by
  have hrange : 48 ≤ c.toNat ∧ c.toNat ≤ 57 := by
    simpa [Char.isDigit, UInt32.le_iff_toNat_le] using h
  have hzero : (decide (48 ≤ c.toNat) && decide (c.toNat < 48 + 10)) = true := by
    rw [Bool.and_eq_true, decide_eq_true_eq, decide_eq_true_eq]
    omega
  have hfind : digitZeros.find? (fun z => z ≤ c.toNat && c.toNat < z + 10) = some 48 :=
    List.find?_cons_of_pos hzero
  rw [digitValue?, hfind]
  rfl

theorem isDigits_map_digit {cs : List Char} (h : ∀ c ∈ cs, c.isDigit = true) :
    IsDigits cs (cs.map Numeral.digit) := by
  rw [IsDigits, List.map_map]
  exact List.map_congr_left fun c hc => digitValue?_of_isDigit (h c hc)

theorem isDigits_decimalDigits (n : ℕ) :
    IsDigits (decimalDigits n) ((decimalDigits n).map Numeral.digit) :=
  isDigits_map_digit fun _ hc => Nat.isDigit_of_mem_toDigits (by decide) (by decide) hc

theorem ofDigits_decimalDigits (n : ℕ) : ofDigits ((decimalDigits n).map Numeral.digit) = n := by
  rw [ofDigits_map_digit, decimalDigits, Nat.ofDigitChars_ten_toDigits]

/-! ### Numerals and exponents -/

namespace Numeral

/-- A literal is a mantissa. -/
theorem Plain.isMantissa {n : Numeral} (h : n.Plain) :
    IsMantissa n.lexeme (n.whole.map digit) ((n.fraction.getD []).map digit) := by
  have hwhole := isDigits_map_digit h.isDigit_whole
  have hne : n.whole.map digit ≠ [] := by
    intro hnil
    exact h.whole_ne_nil (List.map_eq_nil_iff.1 hnil)
  have hfraction := isDigits_map_digit h.isDigit_fraction
  obtain ⟨whole, fraction⟩ := n
  cases fraction with
  | none => exact .whole hwhole hne
  | some digits => exact .pointed hwhole hne hfraction

/-- A literal with an exponent denotes the literal, shifted by the exponent. -/
theorem Plain.isNumeric {n : Numeral} (h : n.Plain) {sign exponent : List Char} {negative : Bool}
    {e : ℤ} (hsign : IsSign sign negative) (hexponent : IsExponent exponent e) :
    IsNumeric (sign ++ (n.lexeme ++ exponent)) negative (some (n.decimal.value * 10 ^ e)) := by
  have hnumeric := IsNumeric.decimal hsign h.isMantissa hexponent
  have hvalue : (ofDigits (n.whole.map digit ++ (n.fraction.getD []).map digit) : ℚ)
      * 10 ^ (e - ((n.fraction.getD []).map digit).length) = n.decimal.value * 10 ^ e := by
    rw [Decimal.value, decimal, Decimal.ofParts, mul_assoc, ← zpow_add₀ (by norm_num)]
    congr 2
    ring
  rwa [hvalue] at hnumeric

end Numeral

/-- Digits stay the same number with a zero before them. -/
theorem exists_isDigits_padded (n : ℕ) :
    ∃ ds, IsDigits (if (decimalDigits n).length < 2 then '0' :: decimalDigits n
      else decimalDigits n) ds ∧ ds ≠ [] ∧ ofDigits ds = n := by
  have hdigits := isDigits_decimalDigits n
  have hvalue := ofDigits_decimalDigits n
  split
  · exact ⟨0 :: _, .cons (by decide) hdigits, List.cons_ne_nil _ _, hvalue⟩
  · refine ⟨_, hdigits, ?_, hvalue⟩
    intro hnil
    exact Nat.toDigits_ne_nil (List.map_eq_nil_iff.1 hnil)

/-- An exponent is written with its sign and at least two digits. -/
theorem Decimal.isExponent_layExponent (e : ℤ) : IsExponent ('e' :: layExponent e) e := by
  obtain ⟨ds, hdigits, hne, hvalue⟩ := exists_isDigits_padded e.natAbs
  by_cases hneg : e < 0
  · have hexponent := IsExponent.some (.inl rfl) .minus hdigits hne
    have he : (if true = true then -(ofDigits ds : ℤ) else ofDigits ds) = e := by
      rw [if_pos rfl, hvalue]
      omega
    rw [he] at hexponent
    rw [layExponent, if_pos hneg]
    exact hexponent
  · have hexponent := IsExponent.some (.inl rfl) .plus hdigits hne
    have he : (if false = true then -(ofDigits ds : ℤ) else ofDigits ds) = e := by
      rw [if_neg (by decide), hvalue]
      omega
    rw [he] at hexponent
    rw [layExponent, if_neg hneg]
    exact hexponent

/-! ### The layouts of a decimal -/

namespace Decimal

variable {d : Decimal} {sign : List Char} {negative : Bool}

/-- A literal with the digits of a decimal denotes the decimal. -/
theorem isNumeric_lexeme {n : Numeral} (hn : n.Plain) (hvalue : n.decimal.value = d.value)
    (hsign : IsSign sign negative) : IsNumeric (sign ++ n.lexeme) negative (some d.value) := by
  have hnumeric := hn.isNumeric hsign .none
  rwa [List.append_nil, zpow_zero, mul_one, hvalue] at hnumeric

/-- A decimal without an exponent. -/
theorem isNumeric_positional (d : Decimal) (hsign : IsSign sign negative) :
    IsNumeric (sign ++ d.positional) negative (some d.value) := by
  rw [positional, ← lexeme_numeral]
  apply isNumeric_lexeme (plain_numeral _ d.isDigit_of_mem_significant) _ hsign
  rw [value_numeral, value_significant]

/-- A decimal that is not zero has a digit that counts. -/
theorem significant_ne_nil (h : d.digits ≠ 0) : d.significant ≠ [] := by
  intro hnil
  have hvalue := d.value_significant
  rw [hnil, Nat.ofDigitChars_nil, Nat.cast_zero, zero_mul] at hvalue
  exact h (value_eq_zero_iff.1 hvalue.symm)

/-- The first digit that counts, the others after a point, and the exponent. -/
theorem isNumeric_shifted {n : Numeral} {c : Char} (hwhole : n.whole = [c])
    (hdigits : n.whole ++ n.fraction.getD [] = d.significant) (hsign : IsSign sign negative) :
    IsNumeric (sign ++ (n.lexeme ++ 'e' :: layExponent (d.leadingPlace - 1))) negative
      (some d.value) := by
  have hall : ∀ c ∈ n.whole ++ n.fraction.getD [], c.isDigit = true := by
    rw [hdigits]
    exact d.isDigit_of_mem_significant
  have hplain : n.Plain := by
    refine ⟨?_, (List.forall_mem_append.1 hall).1, (List.forall_mem_append.1 hall).2⟩
    rw [hwhole]
    exact List.cons_ne_nil c []
  -- one digit stands before the point, and the others behind it
  have hlength : d.significant.length = 1 + (n.fraction.getD []).length := by
    rw [← hdigits, List.length_append, hwhole, List.length_singleton]
  have hvalue : n.decimal.value * 10 ^ (d.leadingPlace - 1) = d.value := by
    rw [Numeral.value_decimal, hdigits, ← d.value_significant, mul_assoc,
      ← zpow_add₀ (by norm_num), hlength]
    congr 2
    push_cast
    ring
  rw [← hvalue]
  exact hplain.isNumeric hsign (isExponent_layExponent _)

/-- A decimal with an exponent. -/
theorem isNumeric_scientific (hne : d.digits ≠ 0) (hsign : IsSign sign negative) :
    IsNumeric (sign ++ d.scientific) negative (some d.value) := by
  rw [scientific]
  cases hsignificant : d.significant with
  | nil => exact absurd hsignificant (significant_ne_nil hne)
  | cons c cs =>
    cases cs with
    | nil => exact isNumeric_shifted (n := ⟨[c], none⟩) rfl hsignificant.symm hsign
    | cons c' cs =>
      have hnumeric :=
        isNumeric_shifted (n := ⟨[c], some (c' :: cs)⟩) rfl hsignificant.symm hsign
      simpa [Numeral.lexeme, layScientific] using hnumeric

end Decimal

/-! ### The texts of a magnitude -/

namespace Magnitude

variable {a : Magnitude} {cs : List Char}

/-- With any sign before it, the text is a numeral, and what it denotes is read as the
magnitude. -/
def Writes (a : Magnitude) (cs : List Char) : Prop :=
  ∃ q, IsNearest q (some a) ∧
    ∀ sign negative, IsSign sign negative → IsNumeric (sign ++ cs) negative (some q)

/-- A text that denotes a decimal writes the magnitude that the decimal is read as. -/
theorem writes_of_isNumeric {d : Decimal} (hd : d.nearest? = some a)
    (h : ∀ sign negative, IsSign sign negative →
      IsNumeric (sign ++ cs) negative (some d.value)) : a.Writes cs := by
  refine ⟨d.value, ?_, h⟩
  have hnearest := d.isNearest_nearest?
  rwa [hd] at hnearest

/-- The digits of a whole number. -/
theorem writes_wholePart (h : a.isWhole = true) : a.Writes (decimalDigits a.wholePart) := by
  have hnumeral : a.numeral = ⟨decimalDigits a.wholePart, none⟩ := by
    rw [numeral, if_pos h]
  have hwrites : a.Writes a.numeral.lexeme :=
    writes_of_isNumeric a.nearest?_numeral
      fun _ _ hsign => Decimal.isNumeric_lexeme a.plain_numeral rfl hsign
  rwa [hnumeral] at hwrites

/-- Only the decimals of zero have no digit but zeros. -/
theorem digits_shortest_ne_zero (h : a.units ≠ 0) : a.shortest.digits ≠ 0 := by
  intro hzero
  have hread := a.nearest?_shortest
  rw [Decimal.nearest?, if_pos hzero] at hread
  exact h (congrArg units (Option.some.inj hread)).symm

/-- The full text of a magnitude that is not zero denotes the decimal with the fewest digits. -/
theorem isNumeric_text (h : a.units ≠ 0) {sign : List Char} {negative : Bool}
    (hsign : IsSign sign negative) :
    IsNumeric (sign ++ a.text) negative (some a.shortest.value) := by
  rw [text, if_neg h]
  simp only
  split
  · exact a.shortest.isNumeric_positional hsign
  · exact Decimal.isNumeric_scientific (digits_shortest_ne_zero h) hsign

/-- **The full text of a magnitude is read as the magnitude.**  The text has the digits of the
shortest decimal in one of its layouts, and every layout denotes this decimal, behind any sign. -/
theorem writes_text (a : Magnitude) : a.Writes a.text := by
  by_cases hunits : a.units = 0
  · obtain rfl : a = zero := Magnitude.ext hunits
    have hplain : (⟨['0'], some ['0']⟩ : Numeral).Plain := ⟨by simp, by simp, by simp⟩
    exact writes_of_isNumeric (d := ⟨0, 0⟩) rfl fun _ _ hsign =>
      Decimal.isNumeric_lexeme hplain
        (by rw [Decimal.value_eq_zero_iff.2 rfl, Decimal.value_eq_zero_iff.2 rfl]) hsign
  · exact writes_of_isNumeric a.nearest?_shortest fun _ _ hsign => isNumeric_text hunits hsign

theorem Writes.ofText? (h : a.Writes cs) {sign : List Char} {negative : Bool}
    (hsign : IsSign sign negative) :
    Number.ofText? (sign ++ cs) = some (.finite negative a) := by
  obtain ⟨q, hq, hnumeric⟩ := h
  obtain ⟨m, hm, hread⟩ := Number.ofText?_decimal (hnumeric sign negative hsign)
  rw [hread, hm.unique hq]
  rfl

end Magnitude

/-! ### The texts of a number -/

namespace Number

/-- The full text of a finite number is read as the number; that of any other number is no
numeral. -/
theorem ofText?_text (x : Number) :
    ofText? x.text.toList = if x.isFinite then some x else none := by
  cases x with
  | nan => decide
  | infinity negative => cases negative <;> decide
  | finite negative a =>
    cases negative with
    | false =>
      rw [text, String.toList_ofList]
      exact a.writes_text.ofText? .none
    | true =>
      rw [text, String.toList_ofList]
      exact a.writes_text.ofText? .minus

/-- There are three numbers that are not finite. -/
theorem eq_of_not_isFinite {x : Number} (h : x.isFinite = false) :
    x = nan ∨ x = infinity false ∨ x = infinity true := by
  cases x with
  | nan => exact .inl rfl
  | infinity negative =>
    cases negative with
    | false => exact .inr (.inl rfl)
    | true => exact .inr (.inr rfl)
  | finite negative a => cases h

/-- They have three texts. -/
theorem eq_of_text_eq {x y : Number} (hx : x.isFinite = false) (hy : y.isFinite = false)
    (h : x.text = y.text) : x = y := by
  rcases eq_of_not_isFinite hx with rfl | rfl | rfl
  · rcases eq_of_not_isFinite hy with rfl | rfl | rfl
    · rfl
    · exact absurd h (by decide)
    · exact absurd h (by decide)
  · rcases eq_of_not_isFinite hy with rfl | rfl | rfl
    · exact absurd h (by decide)
    · rfl
    · exact absurd h (by decide)
  · rcases eq_of_not_isFinite hy with rfl | rfl | rfl
    · exact absurd h (by decide)
    · exact absurd h (by decide)
    · rfl

/-- **Different numbers have different full texts.** -/
theorem text_injective : Function.Injective text := by
  intro x y h
  have hread : ofText? x.text.toList = ofText? y.text.toList := by rw [h]
  rw [ofText?_text, ofText?_text] at hread
  cases hx : x.isFinite with
  | true =>
    cases hy : y.isFinite with
    | true =>
      rw [hx, hy] at hread
      exact Option.some.inj hread
    | false =>
      -- only one of the two texts is a numeral
      rw [hx, hy] at hread
      cases hread
  | false =>
    cases hy : y.isFinite with
    | true =>
      rw [hx, hy] at hread
      cases hread
    | false => exact eq_of_text_eq hx hy h

/-- The full text of a number has no bracket in it. -/
theorem notMem_text (x : Number) : ')' ∉ x.text.toList := by
  cases hx : x.isFinite with
  | true =>
    have hread := x.ofText?_text
    rw [hx, if_pos rfl] at hread
    obtain ⟨_, _, hnumeric⟩ := exists_isNumeric_of_ofText? hread
    have hdigit : ∀ c d, digitValue? c = some d → c ≠ ')' := by
      rintro c d hd rfl
      exact absurd (Option.isSome_of_eq_some hd) (by decide)
    intro hmem
    exact hnumeric.forall_mem hdigit (by decide) _ hmem rfl
  | false =>
    rcases eq_of_not_isFinite hx with rfl | rfl | rfl
    · decide
    · decide
    · decide

/-- The text in output is read as the number, but for the sign of a zero. -/
theorem ofText?_shown {x : Number} (hx : x ≠ nan) :
    ∃ y, ofText? x.shown.toList = some y ∧ y.rank? = x.rank? := by
  cases x with
  | nan => exact absurd rfl hx
  | infinity negative =>
    refine ⟨infinity negative, ?_, rfl⟩
    cases negative with
    | false => exact ofText?_infinity (.infinity .none)
    | true => exact ofText?_infinity (.infinity .minus)
  | finite negative a =>
    by_cases hwhole : a.isWhole = true
    · refine ⟨finite (negative && a.units != 0) a, ?_, ?_⟩
      · simp only [shown, if_pos hwhole, String.toList_ofList]
        cases negative && a.units != 0 with
        | false => exact (Magnitude.writes_wholePart hwhole).ofText? .none
        | true => exact (Magnitude.writes_wholePart hwhole).ofText? .minus
      · -- without its sign a zero has the same rank
        by_cases hzero : a.units = 0
        · simp [rank?, signedUnits, hzero]
        · have hsign : (negative && a.units != 0) = negative := by simp [hzero]
          rw [hsign]
    · refine ⟨finite negative a, ?_, rfl⟩
      rw [shown, if_neg hwhole]
      exact ofText?_text (finite negative a)

theorem eqv_of_rank?_eq {x y : Number} (hx : x ≠ nan) (h : y.rank? = x.rank?) :
    x.eqv y = true ∧ y.eqv x = true := by
  have hy : y ≠ nan := by
    rwa [ne_eq, ← rank?_eq_none_iff, h, rank?_eq_none_iff]
  exact ⟨eqv_iff.2 ⟨hx, h.symm⟩, eqv_iff.2 ⟨hy, h⟩⟩

end Number

/-! ### Blanks -/

/-- No digit is a blank. -/
theorem isBlank_of_digit {c : Char} {d : ℕ} (h : digitValue? c = some d) : isBlank c = false := by
  obtain ⟨z, hz, -⟩ := Option.map_eq_some_iff.1 h
  have hmem := List.mem_of_find?_eq_some hz
  have hrange := List.find?_some hz
  simp only [Bool.and_eq_true, decide_eq_true_eq] at hrange
  -- the digits of a script come before a range of blanks or after it
  have hapart : ∀ z ∈ digitZeros, ∀ r ∈ (0x1C, 0x1F) :: whiteSpaceRanges,
      r.2 < z ∨ z + 10 ≤ r.1 := by decide
  have houtside : ∀ r ∈ (0x1C, 0x1F) :: whiteSpaceRanges, ¬ (r.1 ≤ c.toNat ∧ c.toNat ≤ r.2) := by
    intro r hr
    have := hapart z hmem r hr
    omega
  simp only [isBlank, isWhiteSpace, inRanges, Bool.or_eq_false_iff, List.any_eq_false,
    Bool.and_eq_true, decide_eq_true_eq]
  constructor
  · intro r hr
    exact houtside r (List.mem_cons_of_mem _ hr)
  · intro r hr
    rw [List.mem_singleton.1 hr]
    exact houtside _ (List.mem_cons_self ..)

/-- There are no blanks around a numeral. -/
theorem IsNumeric.trim_eq {cs : List Char} {negative : Bool} {value : Option ℚ}
    (h : IsNumeric cs negative value) : trim cs = cs := by
  have hsolid : ∀ c ∈ cs, isBlank c = false :=
    h.forall_mem (fun c d hd => isBlank_of_digit hd) (by decide)
  have hdrop : ∀ l : List Char, (∀ c ∈ l, isBlank c = false) → l.dropWhile isBlank = l := by
    intro l hl
    cases l with
    | nil => rfl
    | cons c l => exact List.dropWhile_cons_of_neg (by simp [hl c (List.mem_cons_self ..)])
  rw [trim, trimBy, dropEnd, hdrop cs hsolid, hdrop cs.reverse, List.reverse_reverse]
  intro c hc
  exact hsolid c (List.mem_reverse.1 hc)

/-! ### Numbers and their texts -/

namespace Value

/-- **A number that is shown is read back.**  Its text is a numeral that stands for a number
equal to it, and so the number and the text are loosely equal, either way round. -/
theorem shown_reads_back (x : Number) (hx : x ≠ .nan) :
    (∃ negative value, IsNumeric (number x).shown.toList negative value) ∧
    (text (number x).shown).toNumber.eqv x = true ∧
    (number x).looselyEqual (text (number x).shown) = true ∧
    (text (number x).shown).looselyEqual (number x) = true := by
  obtain ⟨y, hread, hrank⟩ := Number.ofText?_shown hx
  obtain ⟨negative, value, hnumeric⟩ := Number.exists_isNumeric_of_ofText? hread
  have hnumber : (text (number x).shown).toNumber = y := by
    show Number.ofLooseText x.shown = y
    have htrim := hnumeric.trim_eq
    rw [Number.ofLooseText_of_trim_ne_nil (by rw [htrim]; exact hnumeric.ne_nil), htrim, hread,
      Option.getD_some]
  have heqv := Number.eqv_of_rank?_eq hx hrank
  refine ⟨⟨negative, value, hnumeric⟩, ?_, ?_, ?_⟩
  · rw [hnumber]
    exact heqv.2
  · show x.eqv (text (number x).shown).toNumber = true
    rw [hnumber]
    exact heqv.1
  · show (text (number x).shown).toNumber.eqv x = true
    rw [hnumber]
    exact heqv.2

/-- The number next to zero from below. -/
def leastBelow : Number :=
  .finite true ⟨1, Nat.one_lt_two_pow (by decide), by decide⟩

theorem shown_reads_back_leastBelow :
    leastBelow ≠ .nan ∧ (number leastBelow).shown = "-5e-324" ∧
    (∃ negative value, IsNumeric (number leastBelow).shown.toList negative value) ∧
    (text (number leastBelow).shown).toNumber.eqv leastBelow = true ∧
    (number leastBelow).looselyEqual (text (number leastBelow).shown) = true ∧
    (text (number leastBelow).shown).looselyEqual (number leastBelow) = true := by
  have hne : leastBelow ≠ .nan := by decide +kernel
  exact ⟨hne, by decide +kernel, shown_reads_back leastBelow hne⟩

end Value

end Lamlet
