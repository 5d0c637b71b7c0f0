import Lamlet.Proofs.Number.Literal
import Lamlet.Text.Quoted
import Lamlet.Token.Lexer

/-!
# Reading a text token by token

The lexer carries a budget of characters that never runs out, so reading a text is
skipping a gap, scanning one token and reading the rest.  A lexeme is scanned as its
token whenever what follows cannot go on with it.

## Main definitions

* `Halts` — a run of characters of a class cannot go on into a text.
* `Lexes` — a text reads as the given tokens, up to its end.

## Main results

* `scan_token_eq_append` — a scanned lexeme is not empty and stands at the start.
* `Input.lex_eq` — the lexer without its budget.
* `Lexes.token`, `Lexes.gap` — reading one more token, or one more blank.
-/

namespace Lamlet

open Text

/-! ### Nothing is lost -/

theorem splitGap_append (inComment : Bool) (cs : List Char) :
    (splitGap inComment cs).1 ++ (splitGap inComment cs).2 = cs := by
  fun_induction splitGap inComment cs with
  | case1 => rfl
  | case2 c cs gap ih => exact congrArg (c :: ·) ih
  | case3 c cs hgap gap ih => exact congrArg (c :: ·) ih
  | case4 => rfl

theorem textBody?_append {escaped : Bool} {cs : List Char} {b : TextBody}
    (h : textBody? escaped cs = some b) : b.lexeme ++ b.rest = cs := by
  fun_induction textBody? escaped cs generalizing b with
  | case1 => simp at h
  | case2 c cs ih =>
    obtain ⟨b', hb', rfl⟩ := Option.map_eq_some_iff.1 h
    exact congrArg (c :: ·) (ih hb')
  | case3 cs ih =>
    obtain ⟨b', hb', rfl⟩ := Option.map_eq_some_iff.1 h
    exact congrArg (_ :: ·) (ih hb')
  | case4 cs hc =>
    obtain rfl := Option.some.inj h
    rfl
  | case5 c cs hc hq ih =>
    obtain ⟨b', hb', rfl⟩ := Option.map_eq_some_iff.1 h
    exact congrArg (c :: ·) (ih hb')

theorem splitNumeral_append (cs : List Char) :
    (splitNumeral cs).1.lexeme ++ (splitNumeral cs).2 = cs := by
  have hsplit := List.takeWhile_append_dropWhile (p := Char.isDigit) (l := cs)
  unfold splitNumeral
  split
  · next rest hrest =>
    rw [hrest] at hsplit
    simpa [Numeral.lexeme] using hsplit
  · exact hsplit

/-- **A scanned lexeme is not empty and stands at the start of the text.** -/
theorem scan_token_eq_append {cs lexeme rest : List Char} {t : Token}
    (h : scan cs = .token t lexeme rest) : lexeme ≠ [] ∧ lexeme ++ rest = cs := by
  cases cs with
  | nil => simp [scan] at h
  | cons c cs =>
    rw [scan] at h
    -- the branches are those of the scanner, in its order
    split at h
    · simp only [scanText] at h
      split at h
      · next b hb =>
        simp only [Scan.token.injEq] at h
        obtain ⟨-, rfl, rfl⟩ := h
        exact ⟨by simp, congrArg (c :: ·) (textBody?_append hb)⟩
      · simp at h
    split at h
    · next hdigit =>
      simp only [Scan.token.injEq] at h
      obtain ⟨-, rfl, rfl⟩ := h
      refine ⟨?_, splitNumeral_append _⟩
      unfold splitNumeral
      split <;> simp [Numeral.lexeme, hdigit]
    split at h
    · next hstart =>
      simp only [scanName, Scan.token.injEq] at h
      obtain ⟨-, rfl, rfl⟩ := h
      refine ⟨?_, List.takeWhile_append_dropWhile⟩
      simp [isNameChar, hstart]
    split at h
    · simp only [Scan.token.injEq] at h
      obtain ⟨-, rfl, rfl⟩ := h
      exact ⟨by simp, rfl⟩
    split at h
    · next hop =>
      simp only [Scan.token.injEq] at h
      obtain ⟨-, rfl, rfl⟩ := h
      refine ⟨?_, List.takeWhile_append_dropWhile⟩
      simp [hop]
    · simp at h

theorem length_lt_of_scan {cs lexeme rest : List Char} {t : Token}
    (h : scan cs = .token t lexeme rest) : rest.length < cs.length := by
  obtain ⟨hne, happ⟩ := scan_token_eq_append h
  have := List.length_pos_iff.2 hne
  rw [← happ, List.length_append]
  omega

/-! ### The lexer without its budget -/

namespace Input

theorem length_rest_skipGap_le (i : Input) : i.skipGap.rest.length ≤ i.rest.length := by
  have happ := splitGap_append false i.rest
  rw [skipGap, consume]
  conv_rhs => rw [← happ]
  simp

/-- Any budget that covers the text gives the same reading. -/
theorem lexWithin_eq (budget budget' : List Char) (i : Input)
    (h : i.rest.length ≤ budget.length) (h' : i.rest.length ≤ budget'.length) :
    lexWithin budget i = lexWithin budget' i := by
  induction budget generalizing budget' i with
  | nil =>
    -- an empty budget covers only an empty text
    have hgap := i.length_rest_skipGap_le
    have hempty : i.skipGap.rest = [] := by
      simp only [List.length_nil] at h
      exact List.length_eq_zero_iff.1 (by omega)
    unfold lexWithin
    simp [hempty, scan]
  | cons c budget ih =>
    unfold lexWithin
    cases hscan : scan i.skipGap.rest with
    | finished => simp [hscan]
    | stuck why consumed rest => simp [hscan]
    | token t lexeme rest =>
      have hlt := length_lt_of_scan hscan
      have hgap := i.length_rest_skipGap_le
      cases budget' with
      | nil =>
        simp only [List.length_nil] at h'
        omega
      | cons c' budget' =>
        simp only [List.length_cons] at h h'
        have hmore : lexWithin budget (i.skipGap.consume lexeme rest)
            = lexWithin budget' (i.skipGap.consume lexeme rest) := by
          refine ih budget' _ ?_ ?_ <;> (simp only [consume]; omega)
        simp only [hscan, hmore]

/-- The reading of an input whose gap is already skipped, given what stands there. -/
def lexAfter (i : Input) : Scan → Lexed
  | .finished => ⟨[], i, none⟩
  | .stuck why consumed rest => ⟨[], i.consume consumed rest, some why⟩
  | .token t lexeme rest =>
    let next := i.consume lexeme rest
    ⟨⟨t, next.place⟩ :: next.lex.tokens, next.lex.stop, next.lex.trouble⟩

/-- **Reading a text is skipping a gap, scanning a token and reading the rest.** -/
theorem lex_eq (i : Input) : i.lex = i.skipGap.lexAfter (scan i.skipGap.rest) := by
  unfold lex lexWithin
  cases hscan : scan i.skipGap.rest with
  | finished => simp [hscan, lexAfter]
  | stuck why consumed rest => simp [hscan, lexAfter]
  | token t lexeme rest =>
    have hlt := length_lt_of_scan hscan
    have hgap := i.length_rest_skipGap_le
    cases hrest : i.rest with
    | nil =>
      simp only [hrest, List.length_nil] at hgap
      omega
    | cons c cs =>
      -- what is left is shorter, so the budget may be taken anew
      have hmore : lexWithin cs (i.skipGap.consume lexeme rest)
          = lex (i.skipGap.consume lexeme rest) := by
        refine lexWithin_eq _ _ _ ?_ le_rfl
        simp only [hrest, List.length_cons] at hgap
        simp only [consume]
        omega
      simp only [hscan, lexAfter, hmore]

/-- A blank at the start of an input changes nothing but the place. -/
theorem lex_gap {c : Char} (hc : isGapChar c = true) (cs : List Char) (p : Place) :
    lex ⟨c :: cs, p⟩ = lex ⟨cs, p.next c⟩ := by
  have hhash : c ≠ '#' := by
    rintro rfl
    simp [isGapChar] at hc
  have hskip : skipGap ⟨c :: cs, p⟩ = skipGap ⟨cs, p.next c⟩ := by
    simp [skipGap, consume, splitGap, hc, hhash]
  rw [lex_eq, lex_eq, hskip]

/-- No lexeme starts with a character of a gap. -/
theorem no_lexeme_of_gap {c : Char} (h : isGapChar c = true ∨ c = '#') :
    c ≠ '"' ∧ c.isDigit = false ∧ isNameStart c = false ∧ Punctuation.ofChar? c = none
      ∧ isOperatorChar c = false := by
  simp only [isGapChar, Bool.or_eq_true, decide_eq_true_eq] at h
  rcases h with ((rfl | rfl) | rfl) | rfl <;> decide

/-- No gap stands where a token does. -/
theorem skipGap_of_scan {cs lexeme rest : List Char} {t : Token}
    (h : scan cs = .token t lexeme rest) (p : Place) : skipGap ⟨cs, p⟩ = ⟨cs, p⟩ := by
  cases cs with
  | nil => simp [scan] at h
  | cons c cs =>
    have hc : (isGapChar c || decide (c = '#')) = false := by
      by_contra hgap
      rw [Bool.not_eq_false, Bool.or_eq_true, decide_eq_true_eq] at hgap
      obtain ⟨hquote, hdigit, hstart, hmark, hoperator⟩ := no_lexeme_of_gap hgap
      simp [scan, hquote, hdigit, hstart, hmark, hoperator] at h
    simp only [skipGap, splitGap, hc, consume]
    rfl

/-- Reading a text that starts with a token. -/
theorem lex_of_scan {cs lexeme rest : List Char} {t : Token}
    (h : scan cs = .token t lexeme rest) (p : Place) :
    lex ⟨cs, p⟩ = lexAfter ⟨cs, p⟩ (.token t lexeme rest) := by
  rw [lex_eq, skipGap_of_scan h, h]

end Input

/-! ### Runs that cannot go on -/

/-- No character of the class stands at the start of the text. -/
def Halts (p : Char → Bool) (cs : List Char) : Prop := ∀ c ∈ cs.head?, p c = false

theorem halts_nil (p : Char → Bool) : Halts p [] := by
  simp [Halts]

theorem halts_cons {p : Char → Bool} {c : Char} (cs : List Char) (h : p c = false) :
    Halts p (c :: cs) := by
  simpa [Halts] using h

/-- A run of a class ends where the class does. -/
theorem takeWhile_append_of_halts {p : Char → Bool} {run rest : List Char}
    (hrun : ∀ c ∈ run, p c = true) (hrest : Halts p rest) :
    (run ++ rest).takeWhile p = run ∧ (run ++ rest).dropWhile p = rest := by
  have hstop : rest.takeWhile p = [] ∧ rest.dropWhile p = rest := by
    cases rest with
    | nil => exact ⟨rfl, rfl⟩
    | cons c cs =>
      have hc : p c = false := hrest c (by simp)
      simp [hc]
  rw [List.takeWhile_append_of_pos hrun, List.dropWhile_append_of_pos hrun, hstop.1, hstop.2]
  exact ⟨List.append_nil _, rfl⟩

/-! ### Lexemes are scanned as their tokens -/

/-- The characters that could go on with some number literal. -/
def isNumeralChar (c : Char) : Bool := c.isDigit || c = '.'

/-- The characters that could go on with a given number literal: it has only one point. -/
def Numeral.goesOn (n : Numeral) (c : Char) : Bool := c.isDigit || (n.fraction.isNone && c = '.')

theorem Halts.goesOn {rest : List Char} (h : Halts isNumeralChar rest) (n : Numeral) :
    Halts n.goesOn rest := by
  intro c hc
  have := h c hc
  simp only [isNumeralChar, Bool.or_eq_false_iff] at this
  simp [Numeral.goesOn, this.1, this.2]

theorem splitNumeral_lexeme {n : Numeral} (h : n.Plain) {rest : List Char}
    (hrest : Halts n.goesOn rest) : splitNumeral (n.lexeme ++ rest) = (n, rest) := by
  have hdigit : Halts Char.isDigit rest := by
    intro c hc
    have := hrest c hc
    simp only [Numeral.goesOn, Bool.or_eq_false_iff] at this
    exact this.1
  obtain ⟨whole, fraction⟩ := n
  cases fraction with
  | some digits =>
    have hpoint : Halts Char.isDigit ('.' :: (digits ++ rest)) := halts_cons _ (by decide)
    obtain ⟨htake, hdrop⟩ := takeWhile_append_of_halts h.isDigit_whole hpoint
    obtain ⟨htake', hdrop'⟩ := takeWhile_append_of_halts h.isDigit_fraction hdigit
    simp only [Option.getD_some] at htake' hdrop'
    simp only [Numeral.lexeme, List.append_assoc, List.cons_append]
    simp only [splitNumeral, hdrop, htake, htake', hdrop']
  | none =>
    obtain ⟨htake, hdrop⟩ := takeWhile_append_of_halts h.isDigit_whole hdigit
    simp only [Numeral.lexeme, splitNumeral]
    rw [htake, hdrop]
    -- without a point the literal ends with its first run of digits
    split
    · next rest' =>
      have := hrest '.' (by simp)
      simp [Numeral.goesOn] at this
    · rfl

/-- A numeral is scanned as the number that it denotes. -/
theorem scan_numeral {n : Numeral} (h : n.Plain) {rest : List Char}
    (hrest : Halts n.goesOn rest) :
    scan (n.lexeme ++ rest) = .token (.number n.value) n.lexeme rest := by
  obtain ⟨c, cs, hwhole⟩ := List.exists_cons_of_ne_nil h.whole_ne_nil
  have hc : c.isDigit = true := h.isDigit_whole c (by rw [hwhole]; simp)
  -- a digit is no quote, for which the scanner looks first
  have hquote : c ≠ '"' := by
    rintro rfl
    simp [Char.isDigit] at hc
  obtain ⟨cs', hlexeme⟩ : ∃ cs', n.lexeme = c :: cs' := by
    unfold Numeral.lexeme
    split <;> simp [hwhole]
  have hsplit := splitNumeral_lexeme h hrest
  rw [hlexeme, List.cons_append] at hsplit ⊢
  simp only [scan, if_neg hquote, if_pos hc, hsplit, hlexeme]

/-- A text literal is read as the text that it denotes. -/
theorem textBody?_escapeLiteral (cs rest : List Char) :
    textBody? false (escapeLiteral cs ++ '"' :: rest)
      = some ⟨cs, escapeLiteral cs ++ ['"'], rest⟩ := by
  induction cs with
  | nil => simp [escapeLiteral, textBody?]
  | cons c cs ih =>
    by_cases hc : c = '\\' ∨ c = '"'
    · simp [escapeLiteral, hc, textBody?, ih]
    · obtain ⟨hback, hquote⟩ := not_or.1 hc
      simp [escapeLiteral, hback, hquote, textBody?, ih]

theorem scan_literal (s : String) (rest : List Char) :
    scan ((literal s).toList ++ rest) = .token (.text s) (literal s).toList rest := by
  simp [literal, scan, scanText, textBody?_escapeLiteral]

/-- No name starts with a digit. -/
theorem isDigit_of_isNameStart {c : Char} (h : isNameStart c = true) : c.isDigit = false := by
  rw [Bool.eq_false_iff, ne_eq, Char.isDigit_iff_toNat]
  rintro ⟨hlow, hhigh⟩
  have hzero : '0'.toNat = 48 := rfl
  have hnine : '9'.toNat = 57 := rfl
  have hrange : c.toNat - 48 < 10 := by omega
  have hc : c = Char.ofNat (48 + (c.toNat - 48)) := by
    rw [Nat.add_sub_cancel' (by omega), Char.ofNat_toNat]
  rw [hc] at h
  generalize c.toNat - 48 = d at hrange h
  -- what is left is to try the ten digits
  revert d
  decide

/-- A run of name characters is scanned as a name or keyword. -/
theorem scan_name {name : String} {c : Char} {cs : List Char} (hname : name.toList = c :: cs)
    (hc : isNameStart c = true) (hcs : ∀ d ∈ cs, isNameChar d = true) {rest : List Char}
    (hrest : Halts isNameChar rest) :
    scan (name.toList ++ rest) = .token (nameToken name.toList) name.toList rest := by
  have hrun : ∀ d ∈ name.toList, isNameChar d = true := by
    rw [hname]
    intro d hd
    rcases List.mem_cons.1 hd with rfl | hd
    · simp [isNameChar, hc]
    · exact hcs d hd
  obtain ⟨htake, hdrop⟩ := takeWhile_append_of_halts hrun hrest
  have hquote : c ≠ '"' := by
    rintro rfl
    exact absurd hc (by decide)
  have hdigit := isDigit_of_isNameStart hc
  rw [hname, List.cons_append] at htake hdrop
  rw [hname, List.cons_append, scan, if_neg hquote, hdigit, if_neg (by simp), if_pos hc, scanName,
    htake, hdrop]

/-- Keywords are made of the characters of names. -/
theorem word_chars (k : Keyword) :
    ∃ c cs, k.word.toList = c :: cs ∧ isNameStart c = true ∧ cs.all isNameChar = true := by
  cases k <;> exact ⟨_, _, rfl, rfl, rfl⟩

/-- A keyword is scanned as such. -/
theorem scan_keyword (k : Keyword) {rest : List Char} (hrest : Halts isNameChar rest) :
    scan (k.word.toList ++ rest) = .token (.keyword k) k.word.toList rest := by
  obtain ⟨c, cs, hword, hstart, hchars⟩ := word_chars k
  have hscan := scan_name hword hstart (List.all_eq_true.1 hchars) hrest
  rw [hscan, nameToken, String.ofList_toList, Keyword.ofName?_word]

/-- A punctuation mark is scanned as such. -/
theorem scan_mark (m : Punctuation) (rest : List Char) :
    scan (m.toChar :: rest) = .token (.mark m) [m.toChar] rest := by
  have hmark := Punctuation.ofChar?_toChar m
  have hquote : m.toChar ≠ '"' := by cases m <;> decide
  have hdigit : m.toChar.isDigit = false := by cases m <;> decide
  have hstart : isNameStart m.toChar = false := by cases m <;> decide
  simp [scan, hquote, hdigit, hstart, hmark]

/-- A run of operator characters is scanned as one operator. -/
theorem scan_operator {symbol : String} (hne : symbol ≠ "")
    (hsymbol : ∀ c ∈ symbol.toList, isOperatorChar c = true) {rest : List Char}
    (hrest : Halts isOperatorChar rest) :
    scan (symbol.toList ++ rest) = .token (.operator symbol) symbol.toList rest := by
  obtain ⟨htake, hdrop⟩ := takeWhile_append_of_halts hsymbol hrest
  obtain ⟨c, cs, hcs⟩ := List.exists_cons_of_ne_nil (fun h => hne (String.toList_eq_nil_iff.1 h))
  have hc : isOperatorChar c = true := hsymbol c (by rw [hcs]; simp)
  -- a character of operators starts no other token
  have hother : c ≠ '"' ∧ c.isDigit = false ∧ isNameStart c = false
      ∧ Punctuation.ofChar? c = none := by
    simp only [isOperatorChar, List.mem_cons, List.not_mem_nil, or_false,
      decide_eq_true_eq] at hc
    rcases hc with rfl | rfl | rfl | rfl | rfl | rfl | rfl | rfl | rfl | rfl | rfl <;> decide
  obtain ⟨hquote, hdigit, hstart, hmark⟩ := hother
  have hback : String.ofList (c :: cs) = symbol := by rw [← hcs, String.ofList_toList]
  rw [hcs, List.cons_append] at htake hdrop
  simp only [hcs, List.cons_append, scan, hquote, hdigit, hstart, hmark, hc, htake, hdrop, hback,
    if_true, if_false, Bool.false_eq_true]

/-! ### Whole texts -/

/-- A text reads as the given tokens, up to its end. -/
def Lexes (cs : List Char) (ts : List Token) : Prop :=
  ∀ p : Place, (Input.lex ⟨cs, p⟩).tokens.map (·.token) = ts ∧ (Input.lex ⟨cs, p⟩).trouble = none

namespace Lexes

theorem nil : Lexes [] [] := by
  intro p
  rw [Input.lex_eq]
  exact ⟨rfl, rfl⟩

/-- A blank between tokens does not count. -/
theorem gap {c : Char} {cs : List Char} {ts : List Token} (hc : isGapChar c = true)
    (h : Lexes cs ts) : Lexes (c :: cs) ts := by
  intro p
  rw [Input.lex_gap hc]
  exact h _

/-- A scanned token is the first one. -/
theorem token {cs lexeme rest : List Char} {t : Token} {ts : List Token}
    (hscan : scan cs = .token t lexeme rest) (h : Lexes rest ts) : Lexes cs (t :: ts) := by
  intro p
  obtain ⟨htokens, htrouble⟩ := h (p.advance lexeme)
  rw [Input.lex_of_scan hscan]
  exact ⟨congrArg (t :: ·) htokens, htrouble⟩

theorem lex {source : String} {ts : List Token} (h : Lexes source.toList ts) :
    (Lamlet.lex source).tokens.map (·.token) = ts ∧ (Lamlet.lex source).trouble = none :=
  h .start

end Lexes

end Lamlet
