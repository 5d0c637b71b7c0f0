import Lamlet.Proofs.Number.Shown
import Lamlet.Proofs.Token.Lexing

/-!
# Literals in plain decimal

The literal of a number has digits and at most one point, with digits on both sides, and
neither a sign nor an exponent.  A whole number is written with all its digits.  Any other
number is written with the digits of its full text, however far that text shifts the point by
an exponent; so the two denote the same rational number, which need not be the number itself.

## Main definitions

* `IsPlainDecimal` — a text in plain decimal, and the rational number that it denotes.
* `Number.value?` — the rational number that a finite number is.
* `Value.IsPlainLiteral` — what is to be said of the literal of a number.

## Main results

* `Magnitude.isPlainDecimal_plainText` — the text of a magnitude without an exponent.
* `Value.literal_plain` — **number literals are plain decimals that denote their numbers**, or
  what the full text denotes.
-/

namespace Lamlet

open Text

/-- Digits from zero to nine, and after a point at least one more if there is a point.  Those
after the point are worth tenths, hundredths and so on. -/
inductive IsPlainDecimal : List Char → ℚ → Prop where
  | whole {cs : List Char} : cs ≠ [] → (∀ c ∈ cs, c.isDigit = true) →
      IsPlainDecimal cs (Nat.ofDigitChars 10 cs 0)
  | pointed {cs ds : List Char} : cs ≠ [] → ds ≠ [] → (∀ c ∈ cs ++ ds, c.isDigit = true) →
      IsPlainDecimal (cs ++ '.' :: ds) (Nat.ofDigitChars 10 (cs ++ ds) 0 / 10 ^ ds.length)

/-- The rational number that a finite number is. -/
def Number.value? : Number → Option ℚ
  | finite negative a => some (if negative then -a.value else a.value)
  | _ => none

/-! ### Numerals -/

/-- A numeral with a digit after its point, if it has one, is a plain decimal. -/
theorem Numeral.Plain.isPlainDecimal {n : Numeral} (h : n.Plain)
    (hfraction : n.fraction ≠ some []) : IsPlainDecimal n.lexeme n.decimal.value := by
  rw [value_decimal]
  obtain ⟨whole, fraction⟩ := n
  cases fraction with
  | none =>
    have hplain : IsPlainDecimal whole (Nat.ofDigitChars 10 whole 0) :=
      .whole h.whole_ne_nil h.isDigit_whole
    simpa [lexeme] using hplain
  | some digits =>
    have hne : digits ≠ [] := by
      intro hnil
      exact hfraction (by rw [hnil])
    have hplain := IsPlainDecimal.pointed h.whole_ne_nil hne
      (List.forall_mem_append.2 ⟨h.isDigit_whole, h.isDigit_fraction⟩)
    simpa [lexeme, div_eq_mul_inv] using hplain

/-- The point of a decimal that is not zero has a digit after it. -/
theorem Decimal.fraction_numeral_ne {digits : List Char} (place : ℤ) (h : digits ≠ []) :
    (numeral digits place).fraction ≠ some [] := by
  unfold numeral
  split
  · simp [h]
  · split
    · next hplace =>
      have hdrop : digits.drop place.toNat ≠ [] := by
        rw [ne_eq, List.drop_eq_nil_iff]
        omega
      simpa using hdrop
    · simp

namespace Magnitude

variable {a : Magnitude}

/-- A magnitude is whole if it is a whole number. -/
theorem isWhole_iff : a.isWhole = true ↔ ∃ n : ℤ, a.value = n := by
  constructor
  · intro h
    refine ⟨a.wholePart, ?_⟩
    rw [value, units_of_isWhole h, Nat.cast_mul, Nat.cast_pow, Nat.cast_ofNat,
      mul_div_cancel_right₀ _ (pow_ne_zero _ two_ne_zero)]
    rfl
  · rintro ⟨n, hn⟩
    rw [value, div_eq_iff (pow_ne_zero _ two_ne_zero)] at hn
    have hunits : (a.units : ℤ) = n * (2 ^ unitBits : ℕ) := by exact_mod_cast hn
    have hdvd : 2 ^ unitBits ∣ a.units :=
      Int.natCast_dvd_natCast.1 (Dvd.intro_left n hunits.symm)
    exact beq_iff_eq.2 (Nat.mod_eq_zero_of_dvd hdvd)

theorem units_ne_zero_of_not_isWhole (h : a.isWhole ≠ true) : a.units ≠ 0 := by
  intro hzero
  exact h (by rw [isWhole, hzero, Nat.zero_mod]; rfl)

theorem fraction_numeral_ne (a : Magnitude) : a.numeral.fraction ≠ some [] := by
  unfold numeral
  split
  · simp
  · next hwhole =>
    apply Decimal.fraction_numeral_ne
    exact Decimal.significant_ne_nil
      (digits_shortest_ne_zero (units_ne_zero_of_not_isWhole hwhole))

/-- The text of a magnitude without an exponent is a plain decimal. -/
theorem isPlainDecimal_plainText (a : Magnitude) :
    IsPlainDecimal a.plainText a.numeral.decimal.value := by
  rw [← lexeme_numeral]
  exact a.plain_numeral.isPlainDecimal a.fraction_numeral_ne

/-- It is read as one token, the number that the magnitude is. -/
theorem lexes_plainText (a : Magnitude) :
    Lexes a.plainText [.number (.finite false a)] := by
  have hscan := scan_numeral a.plain_numeral (halts_nil _)
  rw [List.append_nil, a.lexeme_numeral, a.value_numeral] at hscan
  exact .token hscan .nil

end Magnitude

/-! ### Numbers that are not below zero -/

/-- A number that is not below zero is a magnitude, and has a literal. -/
theorem Number.exists_magnitude {x : Number} {v : ℚ} (hv : x.value? = some v) (hle : 0 ≤ v) :
    ∃ negative a, x = finite negative a ∧ a.value = v ∧
      (negative = true → a.units = 0) ∧ x.literal? = some (String.ofList a.plainText) := by
  cases x with
  | nan => cases hv
  | infinity negative => cases hv
  | finite negative a =>
    have hvalue := Option.some.inj hv
    have hnonneg : 0 ≤ a.value := by
      rw [Magnitude.value]
      positivity
    cases negative with
    | false => exact ⟨false, a, rfl, hvalue, by simp, rfl⟩
    | true =>
      -- only a zero has a sign here
      rw [if_pos rfl] at hvalue
      have hzero : a.value = 0 := by linarith
      have hunits : a.units = 0 := by simpa [Magnitude.value] using hzero
      exact ⟨true, a, rfl, by linarith, fun _ => hunits, by simp [literal?, hunits]⟩

namespace Value

/-- A text is the literal of a number, and denotes a rational number `q`.  The number itself is
the rational number `v`; the two differ where the number is not whole and its full text does not
have all of its digits. -/
structure IsPlainLiteral (x : Number) (v : ℚ) (text : String) (q : ℚ) : Prop where
  /-- The text is how the number is written in a program. -/
  literal : (number x).literal = .ok text
  /-- It has neither a sign nor an exponent. -/
  plain : IsPlainDecimal text.toList q
  /-- The lexer reads it as one token, and as the number that is written. -/
  token : ∃ y, Lexes text.toList [.number y] ∧ y.value? = some v
  /-- A whole number is denoted exactly. -/
  whole : (∃ n : ℤ, v = n) → q = v
  /-- Of any other number the text denotes what the full text of the number denotes. -/
  broken : (¬ ∃ n : ℤ, v = n) → ∀ q', IsNumeric x.text.toList false (some q') ↔ q' = q

/-- **Number literals are plain decimals that denote their numbers.**  Every finite number that
is not below zero has a literal without a sign and an exponent, which the lexer reads as one
token.  It denotes the number itself if that is whole, and otherwise just the rational number
that the full text of the number denotes. -/
theorem literal_plain {x : Number} {v : ℚ} (hv : x.value? = some v) (hle : 0 ≤ v) :
    ∃ text q, IsPlainLiteral x v text q := by
  obtain ⟨negative, a, rfl, rfl, hsign, hliteral⟩ := Number.exists_magnitude hv hle
  refine ⟨String.ofList a.plainText, a.numeral.decimal.value, ?_, ?_, ?_, ?_, ?_⟩
  · rw [literal, Term.renderNumber, hliteral]
  · rw [String.toList_ofList]
    exact a.isPlainDecimal_plainText
  · rw [String.toList_ofList]
    exact ⟨.finite false a, a.lexes_plainText, rfl⟩
  · intro hwhole
    exact Magnitude.value_numeral_of_isWhole (Magnitude.isWhole_iff.2 hwhole)
  · intro hbroken
    have hwhole : a.isWhole ≠ true := fun h => hbroken (Magnitude.isWhole_iff.1 h)
    have hunits := Magnitude.units_ne_zero_of_not_isWhole hwhole
    have hpositive : negative = false := by
      rw [Bool.eq_false_iff]
      exact fun h => hunits (hsign h)
    -- the full text has another layout, but lays out the same decimal
    have htext : IsNumeric (Number.finite negative a).text.toList false
        (some a.shortest.value) := by
      rw [hpositive, Number.text, String.toList_ofList]
      exact Magnitude.isNumeric_text hunits .none
    rw [Magnitude.value_numeral_of_not_isWhole hwhole]
    intro q'
    constructor
    · intro h
      exact Number.eq_of_isNumeric h htext
    · rintro rfl
      exact htext

/-- The least number above zero is written with 324 digits after the point, and a zero with a
sign without it. -/
theorem literal_plain_leastAbove :
    leastBelow.neg.value? = some (1 / 2 ^ unitBits) ∧ leastBelow.neg.text = "5e-324" ∧
    (number leastBelow.neg).literal
      = .ok (String.ofList ('0' :: '.' :: (List.replicate 323 '0' ++ ['5']))) ∧
    (∃ text q, IsPlainLiteral leastBelow.neg (1 / 2 ^ unitBits) text q) ∧
    (number (.finite true .zero)).literal = .ok "0" ∧
    ∃ text q, IsPlainLiteral (.finite true .zero) 0 text q := by
  have hleast : leastBelow.neg.value? = some (1 / 2 ^ unitBits) := by
    simp [leastBelow, Number.neg, Number.value?, Magnitude.value]
  have hzero : (Number.finite true .zero).value? = some 0 := by
    simp [Number.value?, Magnitude.value, Magnitude.zero]
  exact ⟨hleast, by decide +kernel, by decide +kernel, literal_plain hleast (by positivity),
    by decide +kernel, literal_plain hzero le_rfl⟩

end Value

end Lamlet
