import Lamlet.Proofs.Number.Numeric

/-!
# The conversion of numerals

A text that counts as a numeral is handed to the conversion of the host, with its `Infinity`
shortened.  That conversion has a grammar of its own: it takes underscores between digits, and
infinity and `nan` in several spellings, and it fails on all other texts.  It takes every text
that counts as a numeral, and as the same number; so the number that a text stands for is found
without a failure.

## Main definitions

* `dropUnderscores?` — a text without the underscores between its digits.
* `Number.convert?` — the conversion of the host.
* `Number.ofLooseText?` — the number that a text stands for, found by the conversion.

## Main results

* `Number.convert?_shortenInfinity` — the conversion takes every numeral, as the same number.
* `Number.ofLooseText?_eq` — **the conversion never fails on what it is given.**
-/

namespace Lamlet

open Text

/-! ### The conversion -/

/-- A text without its underscores, if each of them stands between two digits.  The flag says
whether a digit comes right before the text. -/
def dropUnderscores? (afterDigit : Bool) : List Char → Option (List Char)
  | [] => some []
  | c :: cs =>
    if c = '_' then
      if afterDigit && (cs.head?.bind digitValue?).isSome then dropUnderscores? false cs else none
    else
      (dropUnderscores? (digitValue? c).isSome cs).map (c :: ·)

/-- A text with each `Infinity` in it shortened. -/
def shortenInfinity : List Char → List Char
  | 'I' :: 'n' :: 'f' :: 'i' :: 'n' :: 'i' :: 't' :: 'y' :: cs =>
    'i' :: 'n' :: 'f' :: shortenInfinity cs
  | c :: cs => c :: shortenInfinity cs
  | [] => []

namespace Number

/-- The conversion of the host, for a text without blanks around it.  Letters may be of either
case, and digits may have underscores between them. -/
def convert? (cs : List Char) : Option Number :=
  let (negative, cs) := Decimal.splitSign cs
  let word := cs.map Char.toLower
  if word = "inf".toList ∨ word = "infinity".toList then some (infinity negative)
  else if word = "nan".toList then some nan
  else ((dropUnderscores? false cs).bind Decimal.ofText?).map (Decimal.toNumber negative)

/-- The number that a text stands for where a number is wanted, found by the conversion of the
host; `none` if that fails.  Only numerals are converted. -/
def ofLooseText? (s : String) : Option Number :=
  match trim s.toList with
  | [] => some zero
  | cs => if (ofText? cs).isSome then convert? (shortenInfinity cs) else some nan

end Number

/-! ### The characters of a numeral -/

/-- No capital letter is a digit. -/
theorem digitValue?_of_capital {c : Char} (h : 'A' ≤ c ∧ c ≤ 'Z') : digitValue? c = none := by
  have hlow : 65 ≤ c.toNat := h.1
  have hhigh : c.toNat ≤ 90 := h.2
  rw [digitValue?, Option.map_eq_none_iff, List.find?_eq_none]
  intro z hz
  have hzero : z = 0x30 ∨ 0x660 ≤ z := by
    revert z
    decide
  simp only [Bool.and_eq_true, decide_eq_true_eq, not_and]
  omega

/-- A small letter stays when letters are made small, and so do characters that are no letters. -/
theorem toLower_eq_self {c : Char} (h : ¬ ('A' ≤ c ∧ c ≤ 'Z')) : c.toLower = c := by
  unfold Char.toLower
  split
  · next hcapital => exact absurd hcapital h
  · rfl

namespace IsNumeralChar

variable {c : Char} (h : IsNumeralChar c)

include h

theorem ne_of_digitValue? {c' : Char} (hdigit : digitValue? c' = none)
    (hmem : c' ∉ ".eE+-".toList) : c ≠ c' := by
  rintro rfl
  rcases h with ⟨d, hd⟩ | h
  · rw [hdigit] at hd
    cases hd
  · exact hmem h

theorem ne_underscore : c ≠ '_' := h.ne_of_digitValue? (by decide) (by decide)

theorem ne_infinity : c ≠ 'I' := h.ne_of_digitValue? (by decide) (by decide)

/-- In either case, it does not start one of the words for infinity and `nan`. -/
theorem toLower_ne : c.toLower ≠ 'i' ∧ c.toLower ≠ 'n' := by
  by_cases hcapital : 'A' ≤ c ∧ c ≤ 'Z'
  · -- the one capital letter is that of an exponent
    rcases h with ⟨d, hd⟩ | hmark
    · rw [digitValue?_of_capital hcapital] at hd
      cases hd
    · have hmarks : ".eE+-".toList.Forall fun c => c.toLower ≠ 'i' ∧ c.toLower ≠ 'n' := by decide
      exact List.forall_iff_forall_mem.1 hmarks c hmark
  · rw [toLower_eq_self hcapital]
    exact ⟨h.ne_of_digitValue? (by decide) (by decide),
      h.ne_of_digitValue? (by decide) (by decide)⟩

end IsNumeralChar

/-! ### The conversion takes every numeral -/

/-- Without a capital `I`, nothing is shortened. -/
theorem shortenInfinity_eq_self {cs : List Char} (h : ∀ c ∈ cs, c ≠ 'I') :
    shortenInfinity cs = cs := by
  induction cs with
  | nil => rfl
  | cons c cs ih =>
    obtain ⟨hc, hcs⟩ := List.forall_mem_cons.1 h
    unfold shortenInfinity
    split
    · next heq => exact absurd (List.cons.inj heq).1 hc
    · next heq =>
      obtain ⟨rfl, rfl⟩ := List.cons.inj heq
      rw [ih hcs]
    · next heq => cases heq

theorem dropUnderscores?_eq_some {cs : List Char} (h : ∀ c ∈ cs, c ≠ '_') (afterDigit : Bool) :
    dropUnderscores? afterDigit cs = some cs := by
  induction cs generalizing afterDigit with
  | nil => rfl
  | cons c cs ih =>
    obtain ⟨hc, hcs⟩ := List.forall_mem_cons.1 h
    rw [dropUnderscores?, if_neg hc, ih hcs, Option.map_some]

/-- The mantissa keeps a numeral apart from the words for infinity and `nan`. -/
theorem IsMantissa.map_toLower_ne {mantissa : List Char} {whole fraction : List ℕ}
    (h : IsMantissa mantissa whole fraction) (rest : List Char) {word : List Char}
    (hword : word.head? = some 'i' ∨ word.head? = some 'n') :
    (mantissa ++ rest).map Char.toLower ≠ word := by
  obtain ⟨c, others, rfl, -⟩ := h.exists_head
  obtain ⟨hi, hn⟩ := (h.isNumeralChar c (List.mem_cons_self ..)).toLower_ne
  rintro rfl
  rcases hword with hhead | hhead
  · exact hi (Option.some.inj hhead)
  · exact hn (Option.some.inj hhead)

namespace Number

/-- **The conversion takes every numeral**, and as the number that the numeral denotes. -/
theorem convert?_shortenInfinity {cs : List Char} {x : Number} (h : ofText? cs = some x) :
    convert? (shortenInfinity cs) = some x := by
  obtain ⟨sign, negative, rest, rfl, hsign, hsplit, ⟨rfl, rfl⟩ | ⟨d, hd, rfl⟩⟩ :=
    cases_of_ofText? h
  · -- `Infinity` is what is shortened, and then it is one of the words
    cases hsign with
    | none => rfl
    | plus => rfl
    | minus => rfl
  · obtain ⟨mantissa, exponent, whole, fraction, e, rfl, hmantissa, hexponent, -⟩ :=
      Decimal.ofText?_eq_some_iff.1 hd
    -- what remains is written without the letters that the conversion treats in its own way
    have hbody : ∀ c ∈ mantissa ++ exponent, IsNumeralChar c :=
      List.forall_mem_append.2 ⟨hmantissa.isNumeralChar, hexponent.isNumeralChar⟩
    have hall : ∀ c ∈ sign ++ (mantissa ++ exponent), c ≠ 'I' := fun c hc =>
      (List.forall_mem_append.2 ⟨hsign.isNumeralChar, hbody⟩ c hc).ne_infinity
    have hinf : (mantissa ++ exponent).map Char.toLower ≠ "inf".toList :=
      hmantissa.map_toLower_ne exponent (.inl rfl)
    have hinfinity : (mantissa ++ exponent).map Char.toLower ≠ "infinity".toList :=
      hmantissa.map_toLower_ne exponent (.inl rfl)
    have hnan : (mantissa ++ exponent).map Char.toLower ≠ "nan".toList :=
      hmantissa.map_toLower_ne exponent (.inr rfl)
    rw [shortenInfinity_eq_self hall, convert?, hsplit]
    simp only
    rw [if_neg (not_or.2 ⟨hinf, hinfinity⟩), if_neg hnan,
      dropUnderscores?_eq_some fun c hc => (hbody c hc).ne_underscore]
    simp only [Option.bind_some, hd, Option.map_some]

/-- **The conversion never fails on what it is given**: every text stands for a number. -/
theorem ofLooseText?_eq (s : String) : ofLooseText? s = some (ofLooseText s) := by
  unfold ofLooseText? ofLooseText
  cases trim s.toList with
  | nil => rfl
  | cons c cs =>
    simp only
    cases h : ofText? (c :: cs) with
    | none => rfl
    | some x => exact convert?_shortenInfinity h

-- The conversion alone takes more than numerals: the first text is `10` for it, the second `nan`.
example : (convert? "1_0".toList).isSome ∧ (ofText? "1_0".toList).isNone := by decide
example : convert? "+nan".toList = some nan ∧ ofText? "+nan".toList = none := by decide
example : convert? "1__0".toList = none := by decide

end Number

end Lamlet
