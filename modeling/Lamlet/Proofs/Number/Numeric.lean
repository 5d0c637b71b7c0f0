import Lamlet.Proofs.Number.Nearest
import Lamlet.Value
import Mathlib.Data.List.TakeWhile

/-!
# Texts that stand for numbers

Where a number is wanted, a text counts as the number that it denotes.  Blanks around it do
not count.  What is left denotes a number if it is a signed `Infinity`, or a sign, digits with
at most one point among them, and an exponent; the digits may be those of any script.  The
reader takes exactly these texts, and gives the number nearest to the decimal that they denote.

## Main definitions

* `IsSign`, `IsDigits`, `IsMantissa`, `IsExponent` — the parts of a numeral.
* `IsNumeric` — a text is a numeral, and what it denotes.
* `IsNumeralChar` — a character that decimals are written with.
* `IsStripped` — a text without the blanks around it.
* `Number.signed` — a sign and a magnitude, or an infinity.

## Main results

* `Decimal.ofText?_eq_some_iff` — the reader of unsigned numerals takes what they are.
* `Number.ofText?_eq_none_iff` — the reader of numerals refuses what is none.
* `IsNumeric.reads` — what it reads a numeral as.
* `Value.toNumber_text_exact` — **the number that a text stands for.**
-/

namespace Lamlet

open Text

/-! ### Numerals -/

/-- An optional sign; the flag says that it is a minus. -/
inductive IsSign : List Char → Bool → Prop where
  | none : IsSign [] false
  | plus : IsSign ['+'] false
  | minus : IsSign ['-'] true

/-- Decimal digits of any script, with their values. -/
def IsDigits (cs : List Char) (digits : List ℕ) : Prop := cs.map digitValue? = digits.map some

/-- Digits with at most one point, and at least one digit.  The values are those of the digits
before the point and after it. -/
inductive IsMantissa : List Char → List ℕ → List ℕ → Prop where
  | whole {cs : List Char} {ds : List ℕ} : IsDigits cs ds → ds ≠ [] → IsMantissa cs ds []
  | pointed {cs cs' : List Char} {ds ds' : List ℕ} :
      IsDigits cs ds → ds ≠ [] → IsDigits cs' ds' → IsMantissa (cs ++ '.' :: cs') ds ds'
  | fraction {cs : List Char} {ds : List ℕ} :
      IsDigits cs ds → ds ≠ [] → IsMantissa ('.' :: cs) [] ds

/-- An optional exponent, and its value. -/
inductive IsExponent : List Char → ℤ → Prop where
  | none : IsExponent [] 0
  | some {c : Char} {sign cs : List Char} {negative : Bool} {ds : List ℕ} :
      c = 'e' ∨ c = 'E' → IsSign sign negative → IsDigits cs ds → ds ≠ [] →
      IsExponent (c :: (sign ++ cs)) (if negative then -(ofDigits ds : ℤ) else ofDigits ds)

/-- A numeral: its sign, and the rational number that it denotes without it, if it is not
infinite. -/
inductive IsNumeric : List Char → Bool → Option ℚ → Prop where
  | infinity {sign : List Char} {negative : Bool} :
      IsSign sign negative → IsNumeric (sign ++ "Infinity".toList) negative none
  | decimal {sign mantissa exponent : List Char} {negative : Bool} {whole fraction : List ℕ}
      {e : ℤ} :
      IsSign sign negative → IsMantissa mantissa whole fraction → IsExponent exponent e →
      IsNumeric (sign ++ (mantissa ++ exponent)) negative
        (some (ofDigits (whole ++ fraction) * 10 ^ (e - fraction.length)))

/-! ### Signs and digits -/

theorem IsDigits.nil : IsDigits [] [] := rfl

theorem IsDigits.cons {c : Char} {d : ℕ} {cs : List Char} {ds : List ℕ}
    (hc : digitValue? c = some d) (h : IsDigits cs ds) : IsDigits (c :: cs) (d :: ds) := by
  rw [IsDigits, List.map_cons, List.map_cons, hc, h]

/-- Every character of a row of digits is a digit. -/
theorem IsDigits.isSome {cs : List Char} {ds : List ℕ} (h : IsDigits cs ds) :
    ∀ c ∈ cs, ∃ d, digitValue? c = some d := by
  intro c hc
  have hmem : digitValue? c ∈ ds.map some := by
    rw [← h]
    exact List.mem_map_of_mem hc
  obtain ⟨d, -, hd⟩ := List.mem_map.1 hmem
  exact ⟨d, hd.symm⟩

/-- A row of digit values that is not empty comes from a text that starts with a digit. -/
theorem IsDigits.exists_head {cs : List Char} {ds : List ℕ} (h : IsDigits cs ds) (hne : ds ≠ []) :
    ∃ c rest d, cs = c :: rest ∧ digitValue? c = some d := by
  cases cs with
  | nil =>
    cases ds with
    | nil => exact absurd rfl hne
    | cons d ds => cases h
  | cons c rest =>
    obtain ⟨d, hd⟩ := h.isSome c (List.mem_cons_self ..)
    exact ⟨c, rest, d, rfl, hd⟩

/-- The text does not start with a digit. -/
def NoDigit (rest : List Char) : Prop := ∀ c, rest.head? = some c → digitValue? c = none

theorem noDigit_nil : NoDigit [] := by
  rintro c ⟨⟩

theorem noDigit_point (rest : List Char) : NoDigit ('.' :: rest) := by
  rintro c ⟨⟩
  decide

theorem IsExponent.noDigit {cs : List Char} {e : ℤ} (h : IsExponent cs e) : NoDigit cs := by
  cases h with
  | none => exact noDigit_nil
  | some hc _ _ _ =>
    rintro c ⟨⟩
    rcases hc with rfl | rfl
    · decide
    · decide

/-- A row of digits is taken as a whole. -/
theorem digitRun_append {cs rest : List Char} {ds : List ℕ} (h : IsDigits cs ds)
    (hrest : NoDigit rest) : digitRun (cs ++ rest) = (ds, rest) := by
  induction cs generalizing ds with
  | nil =>
    obtain rfl : ds = [] := List.map_eq_nil_iff.1 h.symm
    cases rest with
    | nil => rfl
    | cons c rest => rw [List.nil_append, digitRun, hrest c rfl]
  | cons c cs ih =>
    obtain ⟨d, ds, rfl, hd, hds⟩ := List.map_eq_cons_iff.1 h.symm
    rw [List.cons_append, digitRun, ← hd, ih hds.symm]

theorem digitRun_eq {cs : List Char} {ds : List ℕ} (h : IsDigits cs ds) :
    digitRun cs = (ds, []) := by
  have happend := digitRun_append h noDigit_nil
  rwa [List.append_nil] at happend

/-- What is taken is a row of digits. -/
theorem exists_isDigits_of_digitRun {cs rest : List Char} {ds : List ℕ}
    (h : digitRun cs = (ds, rest)) : ∃ taken, cs = taken ++ rest ∧ IsDigits taken ds := by
  induction cs generalizing ds with
  | nil =>
    obtain ⟨rfl, rfl⟩ := Prod.mk.inj h
    exact ⟨[], rfl, .nil⟩
  | cons c cs ih =>
    cases hc : digitValue? c with
    | none =>
      rw [digitRun, hc] at h
      obtain ⟨rfl, rfl⟩ := Prod.mk.inj h
      exact ⟨[], rfl, .nil⟩
    | some d =>
      rw [digitRun, hc] at h
      obtain ⟨rfl, hrest⟩ := Prod.mk.inj h
      obtain ⟨taken, rfl, hdigits⟩ := ih (Prod.ext rfl hrest)
      exact ⟨c :: taken, rfl, .cons hc hdigits⟩

namespace Decimal

theorem splitSign_append {sign rest : List Char} {negative : Bool} (h : IsSign sign negative)
    (hrest : ∀ c, rest.head? = some c → c ≠ '+' ∧ c ≠ '-') :
    splitSign (sign ++ rest) = (negative, rest) := by
  cases h with
  | plus => rfl
  | minus => rfl
  | none =>
    rw [List.nil_append]
    unfold splitSign
    split
    · exact absurd rfl (hrest _ rfl).1
    · exact absurd rfl (hrest _ rfl).2
    · rfl

theorem exists_isSign_of_splitSign {cs rest : List Char} {negative : Bool}
    (h : splitSign cs = (negative, rest)) : ∃ sign, cs = sign ++ rest ∧ IsSign sign negative := by
  unfold splitSign at h
  split at h
  · obtain ⟨rfl, rfl⟩ := Prod.mk.inj h
    exact ⟨['+'], rfl, .plus⟩
  · obtain ⟨rfl, rfl⟩ := Prod.mk.inj h
    exact ⟨['-'], rfl, .minus⟩
  · obtain ⟨rfl, rfl⟩ := Prod.mk.inj h
    exact ⟨[], rfl, .none⟩

/-- A sign is no digit. -/
theorem ne_sign_of_digit {c : Char} {d : ℕ} (h : digitValue? c = some d) : c ≠ '+' ∧ c ≠ '-' := by
  have hplus : digitValue? '+' = none := by decide
  have hminus : digitValue? '-' = none := by decide
  constructor
  · rintro rfl
    rw [hplus] at h
    cases h
  · rintro rfl
    rw [hminus] at h
    cases h

/-! ### Unsigned numerals -/

/-- The reader of exponents takes what they are. -/
theorem exponent?_eq_some_iff {cs : List Char} {e : ℤ} :
    exponent? cs = some e ↔ IsExponent cs e := by
  constructor
  · intro h
    unfold exponent? at h
    split at h
    · obtain rfl := Option.some.inj h
      exact .none
    · split at h
      · next c cs hc =>
        rcases hsplit : splitSign cs with ⟨negative, rest⟩
        obtain ⟨sign, rfl, hsign⟩ := exists_isSign_of_splitSign hsplit
        simp only [hsplit] at h
        split at h
        · next d ds hrun =>
          obtain rfl := Option.some.inj h
          obtain ⟨taken, rfl, hdigits⟩ := exists_isDigits_of_digitRun hrun
          rw [List.append_nil]
          exact .some hc hsign hdigits (List.cons_ne_nil d ds)
        · cases h
      · cases h
  · intro h
    cases h with
    | none => rfl
    | @some c sign cs negative ds hc hsign hdigits hne =>
      obtain ⟨first, rest, d, rfl, hd⟩ := hdigits.exists_head hne
      -- what follows the sign is a digit, so that nothing else is taken for one
      have hsplit : splitSign (sign ++ first :: rest) = (negative, first :: rest) := by
        apply splitSign_append hsign
        rintro c ⟨⟩
        exact ne_sign_of_digit hd
      rw [exponent?, if_pos hc, hsplit]
      simp only [digitRun_eq hdigits]
      cases ds with
      | nil => exact absurd rfl hne
      | cons d ds => rfl

/-- The digits of a mantissa are taken up to the exponent. -/
theorem splitFraction_of_isMantissa {mantissa exponent : List Char} {whole fraction : List ℕ}
    {e : ℤ} (hmantissa : IsMantissa mantissa whole fraction) (hexponent : IsExponent exponent e) :
    (digitRun (mantissa ++ exponent)).1 = whole ∧
    splitFraction (digitRun (mantissa ++ exponent)).2 = (fraction, exponent) := by
  -- an exponent starts with a letter, so that no point follows the digits
  have hletter : splitFraction exponent = ([], exponent) := by
    cases hexponent with
    | none => rfl
    | some hc _ _ _ => rcases hc with rfl | rfl <;> rfl
  cases hmantissa with
  | whole hdigits _ =>
    rw [digitRun_append hdigits hexponent.noDigit]
    exact ⟨rfl, hletter⟩
  | @pointed cs cs' ds ds' hdigits _ hfraction =>
    rw [List.append_assoc, List.cons_append, digitRun_append hdigits (noDigit_point _)]
    exact ⟨rfl, digitRun_append hfraction hexponent.noDigit⟩
  | @fraction cs ds hdigits _ =>
    have hnone : digitRun ('.' :: cs ++ exponent) = ([], '.' :: cs ++ exponent) :=
      digitRun_append .nil (noDigit_point _)
    rw [hnone]
    exact ⟨rfl, digitRun_append hdigits hexponent.noDigit⟩

/-- **The reader of unsigned numerals takes what they are.** -/
theorem ofText?_eq_some_iff {cs : List Char} {d : Decimal} :
    ofText? cs = some d ↔ ∃ mantissa exponent whole fraction e, cs = mantissa ++ exponent ∧
      IsMantissa mantissa whole fraction ∧ IsExponent exponent e ∧
      d = ofParts whole fraction e := by
  constructor
  · intro h
    unfold ofText? at h
    rcases hwhole : digitRun cs with ⟨whole, rest⟩
    rcases hfraction : splitFraction rest with ⟨fraction, exponent⟩
    obtain ⟨taken, rfl, hdigits⟩ := exists_isDigits_of_digitRun hwhole
    simp only [hwhole, hfraction, Bool.and_eq_true, List.isEmpty_iff] at h
    split at h
    · cases h
    · next hne =>
      obtain ⟨e, he, rfl⟩ := Option.map_eq_some_iff.1 h
      have hexponent := exponent?_eq_some_iff.1 he
      unfold splitFraction at hfraction
      split at hfraction
      · next after =>
        obtain ⟨taken', rfl, hdigits'⟩ := exists_isDigits_of_digitRun hfraction
        -- the point comes first, or digits come before it
        cases whole with
        | nil =>
          obtain rfl : taken = [] := List.map_eq_nil_iff.1 hdigits
          refine ⟨'.' :: taken', exponent, [], fraction, e, rfl, ?_, hexponent, rfl⟩
          exact .fraction hdigits' fun hnil => hne ⟨rfl, hnil⟩
        | cons d ds =>
          refine ⟨taken ++ '.' :: taken', exponent, d :: ds, fraction, e, ?_, ?_, hexponent, rfl⟩
          · rw [List.append_assoc, List.cons_append]
          · exact .pointed hdigits (List.cons_ne_nil d ds) hdigits'
      · obtain ⟨rfl, rfl⟩ := Prod.mk.inj hfraction
        refine ⟨taken, rest, whole, [], e, rfl, ?_, hexponent, rfl⟩
        exact .whole hdigits fun hnil => hne ⟨hnil, rfl⟩
  · rintro ⟨mantissa, exponent, whole, fraction, e, rfl, hmantissa, hexponent, rfl⟩
    obtain ⟨hwhole, hfraction⟩ := splitFraction_of_isMantissa hmantissa hexponent
    have hne : ¬ (whole = [] ∧ fraction = []) := by
      rintro ⟨rfl, rfl⟩
      cases hmantissa with
      | whole _ hnil => exact hnil rfl
      | pointed _ hnil _ => exact hnil rfl
      | fraction _ hnil => exact hnil rfl
    simp only [ofText?, hwhole, hfraction, Bool.and_eq_true, List.isEmpty_iff, if_neg hne,
      exponent?_eq_some_iff.2 hexponent, Option.map_some]

end Decimal

/-! ### Numerals with a sign -/

/-- A mantissa starts with a digit or a point. -/
theorem IsMantissa.exists_head {mantissa : List Char} {whole fraction : List ℕ}
    (h : IsMantissa mantissa whole fraction) :
    ∃ c rest, mantissa = c :: rest ∧ c ≠ '+' ∧ c ≠ '-' ∧ c ≠ 'I' := by
  have hletter : digitValue? 'I' = none := by decide
  have hdigit : ∀ c d, digitValue? c = some d → c ≠ '+' ∧ c ≠ '-' ∧ c ≠ 'I' := by
    intro c d hd
    refine ⟨(Decimal.ne_sign_of_digit hd).1, (Decimal.ne_sign_of_digit hd).2, ?_⟩
    rintro rfl
    rw [hletter] at hd
    cases hd
  cases h with
  | whole hdigits hne =>
    obtain ⟨c, rest, d, rfl, hd⟩ := hdigits.exists_head hne
    exact ⟨c, rest, rfl, hdigit c d hd⟩
  | pointed hdigits hne _ =>
    obtain ⟨c, rest, d, rfl, hd⟩ := hdigits.exists_head hne
    exact ⟨c, _, rfl, hdigit c d hd⟩
  | fraction _ _ => exact ⟨'.', _, rfl, by decide, by decide, by decide⟩

/-- A numeral is not empty. -/
theorem IsNumeric.ne_nil {cs : List Char} {negative : Bool} {value : Option ℚ}
    (h : IsNumeric cs negative value) : cs ≠ [] := by
  cases h with
  | infinity _ => simp
  | decimal _ hmantissa _ =>
    obtain ⟨c, rest, rfl, -⟩ := hmantissa.exists_head
    simp

/-- A character that a decimal is written with. -/
def IsNumeralChar (c : Char) : Prop := (∃ d, digitValue? c = some d) ∨ c ∈ ".eE+-".toList

theorem IsDigits.isNumeralChar {cs : List Char} {ds : List ℕ} (h : IsDigits cs ds) :
    ∀ c ∈ cs, IsNumeralChar c := fun c hc => .inl (h.isSome c hc)

theorem IsSign.isNumeralChar {cs : List Char} {negative : Bool} (h : IsSign cs negative) :
    ∀ c ∈ cs, IsNumeralChar c := by
  intro c hc
  refine .inr ?_
  cases h with
  | none => cases hc
  | plus =>
    obtain rfl := List.mem_singleton.1 hc
    decide
  | minus =>
    obtain rfl := List.mem_singleton.1 hc
    decide

theorem IsMantissa.isNumeralChar {cs : List Char} {whole fraction : List ℕ}
    (h : IsMantissa cs whole fraction) : ∀ c ∈ cs, IsNumeralChar c := by
  have hpoint : IsNumeralChar '.' := .inr (by decide)
  cases h with
  | whole hdigits _ => exact hdigits.isNumeralChar
  | pointed hdigits _ hdigits' =>
    exact List.forall_mem_append.2
      ⟨hdigits.isNumeralChar, List.forall_mem_cons.2 ⟨hpoint, hdigits'.isNumeralChar⟩⟩
  | fraction hdigits _ => exact List.forall_mem_cons.2 ⟨hpoint, hdigits.isNumeralChar⟩

theorem IsExponent.isNumeralChar {cs : List Char} {e : ℤ} (h : IsExponent cs e) :
    ∀ c ∈ cs, IsNumeralChar c := by
  cases h with
  | none => simp
  | some hletter hsign hdigits _ =>
    refine List.forall_mem_cons.2
      ⟨.inr ?_, List.forall_mem_append.2 ⟨hsign.isNumeralChar, hdigits.isNumeralChar⟩⟩
    rcases hletter with rfl | rfl
    · decide
    · decide

/-- The characters of numerals other than digits. -/
def numericMarks : List Char := "+-.eEInfity".toList

/-- A property of digits and of the other characters of numerals is one of all characters of a
numeral. -/
theorem IsNumeric.forall_mem {P : Char → Prop} {cs : List Char} {negative : Bool}
    {value : Option ℚ} (h : IsNumeric cs negative value)
    (hdigit : ∀ c d, digitValue? c = some d → P c) (hmarks : numericMarks.Forall P) :
    ∀ c ∈ cs, P c := by
  have hmark : ∀ c ∈ numericMarks, P c := List.forall_iff_forall_mem.1 hmarks
  have hchar : ∀ c, IsNumeralChar c → P c := by
    have hsome : ".eE+-".toList.Forall (· ∈ numericMarks) := by decide
    rintro c (⟨d, hd⟩ | hc)
    · exact hdigit c d hd
    · exact hmark c (List.forall_iff_forall_mem.1 hsome c hc)
  cases h with
  | infinity hsign =>
    have hletters : "Infinity".toList.Forall (· ∈ numericMarks) := by decide
    exact List.forall_mem_append.2
      ⟨fun c hc => hchar c (hsign.isNumeralChar c hc),
        fun c hc => hmark c (List.forall_iff_forall_mem.1 hletters c hc)⟩
  | decimal hsign hmantissa hexponent =>
    have hall := List.forall_mem_append.2 ⟨hsign.isNumeralChar,
      List.forall_mem_append.2 ⟨hmantissa.isNumeralChar, hexponent.isNumeralChar⟩⟩
    exact fun c hc => hchar c (hall c hc)

/-- A sign and a magnitude; what overflows is infinite. -/
def Number.signed (negative : Bool) : Option Magnitude → Number
  | some size => finite negative size
  | none => infinity negative

theorem Decimal.toNumber_eq (negative : Bool) (d : Decimal) :
    d.toNumber negative = .signed negative d.nearest? := by
  unfold toNumber
  cases d.nearest? with
  | some size => rfl
  | none => rfl

namespace Number

theorem signed_ne_nan (negative : Bool) (m : Option Magnitude) : signed negative m ≠ nan := by
  cases m with
  | some size => exact fun h => nomatch h
  | none => exact fun h => nomatch h

variable {cs : List Char} {negative : Bool} {x : Number}

/-- A signed `Infinity` is read as an infinity. -/
theorem ofText?_infinity (h : IsNumeric cs negative none) :
    ofText? cs = some (infinity negative) := by
  cases h with
  | @infinity sign _ hsign =>
    have hsplit : Decimal.splitSign (sign ++ "Infinity".toList)
        = (negative, "Infinity".toList) := by
      apply Decimal.splitSign_append hsign
      rintro c ⟨⟩
      decide
    rw [ofText?, hsplit]
    exact if_pos rfl

/-- A decimal numeral is a sign, and a text that is read as a decimal of its value. -/
theorem exists_decimal_of_isNumeric {q : ℚ} (h : IsNumeric cs negative (some q)) :
    ∃ rest d, Decimal.splitSign cs = (negative, rest) ∧ rest ≠ "Infinity".toList ∧
      Decimal.ofText? rest = some d ∧ d.value = q := by
  cases h with
  | @decimal sign mantissa exponent _ whole fraction e hsign hmantissa hexponent =>
    have hread := Decimal.ofText?_eq_some_iff.2
      ⟨mantissa, exponent, whole, fraction, e, rfl, hmantissa, hexponent, rfl⟩
    obtain ⟨c, rest, rfl, hplus, hminus, hletter⟩ := hmantissa.exists_head
    have hsplit : Decimal.splitSign (sign ++ (c :: rest ++ exponent))
        = (negative, c :: rest ++ exponent) := by
      apply Decimal.splitSign_append hsign
      rintro c ⟨⟩
      exact ⟨hplus, hminus⟩
    have hne : c :: rest ++ exponent ≠ "Infinity".toList := by
      intro heq
      exact hletter (List.cons.inj heq).1
    exact ⟨c :: rest ++ exponent, Decimal.ofParts whole fraction e, hsplit, hne, hread, rfl⟩

/-- A decimal numeral is read as the number nearest to what it denotes. -/
theorem ofText?_decimal {q : ℚ} (h : IsNumeric cs negative (some q)) :
    ∃ m, IsNearest q m ∧ ofText? cs = some (signed negative m) := by
  obtain ⟨rest, d, hsplit, hne, hread, rfl⟩ := exists_decimal_of_isNumeric h
  refine ⟨_, d.isNearest_nearest?, ?_⟩
  rw [ofText?, hsplit]
  simp only [if_neg hne, hread, Option.map_some, Decimal.toNumber_eq]

/-- A numeral denotes one rational number only. -/
theorem eq_of_isNumeric {negative' : Bool} {q q' : ℚ} (h : IsNumeric cs negative (some q))
    (h' : IsNumeric cs negative' (some q')) : q = q' := by
  obtain ⟨rest, d, hsplit, -, hread, rfl⟩ := exists_decimal_of_isNumeric h
  obtain ⟨rest', d', hsplit', -, hread', rfl⟩ := exists_decimal_of_isNumeric h'
  obtain ⟨-, rfl⟩ := Prod.mk.inj (hsplit.symm.trans hsplit')
  obtain rfl : d = d' := Option.some.inj (hread.symm.trans hread')
  rfl

/-- What is read is a sign with `Infinity` after it or with a decimal after it. -/
theorem cases_of_ofText? (h : ofText? cs = some x) :
    ∃ sign negative rest, cs = sign ++ rest ∧ IsSign sign negative ∧
      Decimal.splitSign cs = (negative, rest) ∧
      (rest = "Infinity".toList ∧ x = infinity negative ∨
        ∃ d, Decimal.ofText? rest = some d ∧ x = d.toNumber negative) := by
  unfold ofText? at h
  rcases hsplit : Decimal.splitSign cs with ⟨negative, rest⟩
  obtain ⟨sign, hcs, hsign⟩ := Decimal.exists_isSign_of_splitSign hsplit
  refine ⟨sign, negative, rest, hcs, hsign, rfl, ?_⟩
  simp only [hsplit] at h
  split at h
  · next hinfinity => exact .inl ⟨hinfinity, (Option.some.inj h).symm⟩
  · obtain ⟨d, hd, hx⟩ := Option.map_eq_some_iff.1 h
    exact .inr ⟨d, hd, hx.symm⟩

/-- Only numerals are read. -/
theorem exists_isNumeric_of_ofText? (h : ofText? cs = some x) :
    ∃ negative value, IsNumeric cs negative value := by
  obtain ⟨sign, negative, rest, rfl, hsign, -, ⟨rfl, -⟩ | ⟨d, hd, -⟩⟩ := cases_of_ofText? h
  · exact ⟨negative, none, .infinity hsign⟩
  · obtain ⟨mantissa, exponent, whole, fraction, e, rfl, hmantissa, hexponent, -⟩ :=
      Decimal.ofText?_eq_some_iff.1 hd
    exact ⟨negative, _, .decimal hsign hmantissa hexponent⟩

/-- **The reader of numerals refuses what is none.** -/
theorem ofText?_eq_none_iff :
    ofText? cs = none ↔ ∀ negative value, ¬ IsNumeric cs negative value := by
  constructor
  · intro h negative value hnumeric
    cases value with
    | none =>
      rw [ofText?_infinity hnumeric] at h
      cases h
    | some q =>
      obtain ⟨m, -, hm⟩ := ofText?_decimal hnumeric
      rw [hm] at h
      cases h
  · intro h
    cases hread : ofText? cs with
    | none => rfl
    | some x =>
      obtain ⟨negative, value, hvalue⟩ := exists_isNumeric_of_ofText? hread
      exact absurd hvalue (h negative value)

/-- A numeral is never read as `nan`. -/
theorem ofText?_ne_nan : ofText? cs ≠ some nan := by
  intro h
  obtain ⟨negative, value, hnumeric⟩ := exists_isNumeric_of_ofText? h
  cases value with
  | none =>
    rw [ofText?_infinity hnumeric] at h
    cases h
  | some q =>
    obtain ⟨m, -, hm⟩ := ofText?_decimal hnumeric
    rw [hm] at h
    exact signed_ne_nan _ m (Option.some.inj h)

end Number

/-! ### Blanks around a text -/

/-- The second text is the first one without the blanks around it. -/
structure IsStripped (cs t : List Char) : Prop where
  /-- Only blanks are left out. -/
  blanks : ∃ before after, cs = before ++ t ++ after ∧
    (∀ c ∈ before, isBlank c = true) ∧ ∀ c ∈ after, isBlank c = true
  /-- No blank is left at the start. -/
  head : ∀ c, t.head? = some c → isBlank c = false
  /-- No blank is left at the end. -/
  last : ∀ c, t.getLast? = some c → isBlank c = false

theorem isBlank_head?_dropWhile (cs : List Char) :
    ∀ c, (cs.dropWhile isBlank).head? = some c → isBlank c = false := by
  intro c h
  have hall := List.head?_dropWhile_not isBlank cs
  rw [h] at hall
  simpa using hall

theorem isStripped_trim (cs : List Char) : IsStripped cs (trim cs) := by
  -- the blanks at the end are those that the reversed text starts with
  have hend : cs.dropWhile isBlank = trim cs
      ++ ((cs.dropWhile isBlank).reverse.takeWhile isBlank).reverse := by
    rw [trim, trimBy, dropEnd, ← List.reverse_append, List.takeWhile_append_dropWhile,
      List.reverse_reverse]
  constructor
  · refine ⟨cs.takeWhile isBlank,
      ((cs.dropWhile isBlank).reverse.takeWhile isBlank).reverse, ?_, ?_, ?_⟩
    · rw [List.append_assoc, ← hend, List.takeWhile_append_dropWhile]
    · intro c hc
      exact List.mem_takeWhile_imp hc
    · intro c hc
      exact List.mem_takeWhile_imp (List.mem_reverse.1 hc)
  · intro c hc
    apply isBlank_head?_dropWhile cs
    rw [hend]
    cases htrim : trim cs with
    | nil =>
      rw [htrim] at hc
      cases hc
    | cons first rest =>
      rw [htrim] at hc
      exact hc
  · intro c hc
    apply isBlank_head?_dropWhile (cs.dropWhile isBlank).reverse
    rwa [trim, trimBy, dropEnd, List.getLast?_reverse] at hc

/-! ### What a text stands for -/

namespace Number

theorem ofLooseText_of_trim_eq_nil {s : String} (h : trim s.toList = []) :
    ofLooseText s = zero := by
  rw [ofLooseText, h]

theorem ofLooseText_of_trim_ne_nil {s : String} (h : trim s.toList ≠ []) :
    ofLooseText s = (ofText? (trim s.toList)).getD nan := by
  unfold ofLooseText
  split
  · next hnil => exact absurd hnil h
  · rfl

/-- A text is `nan` exactly if it is not blank and no numeral. -/
theorem ofLooseText_eq_nan_iff {s : String} :
    ofLooseText s = nan ↔ trim s.toList ≠ [] ∧
      ∀ negative value, ¬ IsNumeric (trim s.toList) negative value := by
  rw [← ofText?_eq_none_iff]
  by_cases hempty : trim s.toList = []
  · rw [ofLooseText_of_trim_eq_nil hempty]
    constructor
    · intro hnan
      cases hnan
    · rintro ⟨hne, -⟩
      exact absurd hempty hne
  · rw [ofLooseText_of_trim_ne_nil hempty, and_iff_right hempty]
    cases hread : ofText? (trim s.toList) with
    | none => exact ⟨fun _ => rfl, fun _ => rfl⟩
    | some x =>
      constructor
      · intro hnan
        rw [Option.getD_some] at hnan
        exact absurd (hnan ▸ hread) ofText?_ne_nan
      · intro hnone
        cases hnone

end Number

/-- **The number that a text stands for.**  Nothing but blanks is zero; what is no numeral is
`nan`; a numeral is the number nearest to what it denotes, with its sign. -/
theorem Value.toNumber_text_exact (s : String) :
    ∃ t, IsStripped s.toList t ∧
    (t = [] → (Value.text s).toNumber = .zero) ∧
    ((Value.text s).toNumber = .nan ↔ t ≠ [] ∧ ∀ negative value, ¬ IsNumeric t negative value) ∧
    (∀ negative, IsNumeric t negative none → (Value.text s).toNumber = .infinity negative) ∧
    ∀ negative q, IsNumeric t negative (some q) →
      ∀ x, (Value.text s).toNumber = x ↔ ∃ m, IsNearest q m ∧ x = .signed negative m := by
  simp only [Value.toNumber]
  refine ⟨trim s.toList, isStripped_trim s.toList, Number.ofLooseText_of_trim_eq_nil,
    Number.ofLooseText_eq_nan_iff, ?_, ?_⟩
  · intro negative hnumeric
    rw [Number.ofLooseText_of_trim_ne_nil hnumeric.ne_nil, Number.ofText?_infinity hnumeric,
      Option.getD_some]
  · intro negative q hnumeric x
    obtain ⟨m, hm, hread⟩ := Number.ofText?_decimal hnumeric
    rw [Number.ofLooseText_of_trim_ne_nil hnumeric.ne_nil, hread, Option.getD_some]
    constructor
    · rintro rfl
      exact ⟨m, hm, rfl⟩
    · rintro ⟨m', hm', rfl⟩
      rw [hm.unique hm']

end Lamlet
