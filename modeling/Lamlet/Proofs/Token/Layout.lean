import Lamlet.Proofs.Text.Places
import Lamlet.Proofs.Token.Splitting
import Lamlet.Text.Quoted

/-!
# Layout

How a text is laid out does not matter to its tokens.  Lexemes neither start nor end in a
blank, so the blanks around a text can go; and no lexeme but a text literal goes on over the
end of a line, so a text that has no such literal can be read line by line.

The class of blanks that are trimmed is wider than that of the gaps between tokens.  A blank
that is no gap stands inside a comment or a text literal, or the text cannot be read.

## Main definitions

* `OneLined` — no text literal goes on over the end of a line.
* `tokensOf`, `linesOf` — the tokens and the lines of a text.

## Main results

* `lexes_iff` — a text lexes iff it splits into pieces and a gap.
* `Lexeme.solid`, `Lexeme.exists_last`, `Lexeme.newline_notMem` — where blanks are in lexemes.
* `Lexes.trim` — **the blanks around a text do not count.**
* `Lexes.append_newline`, `Lexes.split_newline` — a newline between tokens.
* `Lexes.linesOf`, `Lexes.joinWith` — **a text lexes line by line.**
-/

namespace Lamlet

open Text

/-! ### Texts that lex -/

theorem map_token_locate (p : Place) (pieces : List Piece) :
    (locate p pieces).map (·.token) = pieces.map (·.token) := by
  induction pieces generalizing p with
  | nil => rfl
  | cons q pieces ih => simp [locate, ih]

/-- A text lexes iff it splits into pieces and a gap. -/
theorem lexes_iff (cs : List Char) (ts : List Token) :
    Lexes cs ts ↔
      ∃ pieces left, Splits cs pieces left ∧ LastGap left ∧ pieces.map (·.token) = ts := by
  constructor
  · intro h
    -- every text splits somehow, and here there is no trouble
    obtain ⟨pieces, left, trouble, consumed, hsplits, hending⟩ := exists_splits cs
    obtain ⟨rest, hlex⟩ := hsplits.lex hending .start
    obtain ⟨htokens, htrouble⟩ := h .start
    rw [hlex] at htokens htrouble
    simp only [map_token_locate] at htokens
    cases hending with
    | finished hgap => exact ⟨pieces, left, hsplits, hgap, htokens⟩
    | unreadable => cases htrouble
    | unterminated => cases htrouble
  · rintro ⟨pieces, left, hsplits, hgap, rfl⟩ p
    obtain ⟨rest, hlex⟩ := hsplits.lex (.finished hgap) p
    rw [hlex]
    exact ⟨map_token_locate p pieces, rfl⟩

/-- Where a text stands does not matter. -/
theorem Lexes.of_lex {i : Input} (h : i.lex.trouble = none) :
    Lexes i.rest (i.lex.tokens.map (·.token)) := by
  obtain ⟨pieces, left, trouble, consumed, hsplits, hending⟩ := exists_splits i.rest
  obtain ⟨rest, hlex⟩ := hsplits.lex hending i.place
  rw [hlex] at h ⊢
  obtain rfl : trouble = none := h
  cases hending with
  | finished hgap =>
    exact (lexes_iff _ _).2 ⟨pieces, left, hsplits, hgap, (map_token_locate _ _).symm⟩

/-- A gap before a text does not count. -/
theorem Lexes.gap_append {gap cs : List Char} {ts : List Token} (hgap : Gap gap)
    (h : Lexes cs ts) : Lexes (gap ++ cs) ts := by
  intro p
  rw [Input.lex_gap_append hgap]
  exact h _

theorem Lexes.of_lastGap {gap : List Char} (h : LastGap gap) : Lexes gap [] :=
  (lexes_iff gap []).2 ⟨[], gap, .stop gap, h, rfl⟩

theorem Lexes.piece {gap lexeme rest : List Char} {t : Token} {ts : List Token} (hgap : Gap gap)
    (hlexeme : Lexeme t lexeme) (hmunched : Munched lexeme rest) (h : Lexes rest ts) :
    Lexes (gap ++ (lexeme ++ rest)) (t :: ts) :=
  .gap_append hgap (.token ((scan_eq_token_iff _ _ _ _).2 ⟨rfl, hlexeme, hmunched⟩) h)

/-- Induction on a text that lexes: it is a gap, or a gap and a lexeme before such a text. -/
theorem Lexes.induction {motive : List Char → List Token → Prop}
    (last : ∀ gap, LastGap gap → motive gap [])
    (piece : ∀ gap lexeme rest t ts, Gap gap → Lexeme t lexeme → Munched lexeme rest →
      Lexes rest ts → motive rest ts → motive (gap ++ (lexeme ++ rest)) (t :: ts))
    {cs : List Char} {ts : List Token} (h : Lexes cs ts) : motive cs ts := by
  obtain ⟨pieces, left, hsplits, hgap, rfl⟩ := (lexes_iff cs ts).1 h
  clear h
  induction hsplits with
  | stop left => exact last left hgap
  | @piece gap lexeme rest left t pieces hgap' hlexeme hmunched hsplits ih =>
    exact piece gap lexeme rest t _ hgap' hlexeme hmunched
      ((lexes_iff _ _).2 ⟨pieces, left, hsplits, hgap, rfl⟩) (ih hgap)

/-! ### Blanks in lexemes -/

/-- Visible characters of ASCII are not blank. -/
theorem isBlank_of_visible {c : Char} (hlow : 32 < c.toNat) (hhigh : c.toNat < 127) :
    isBlank c = false := by
  by_contra hblank
  simp only [isBlank, isWhiteSpace, inRanges, whiteSpaceRanges, List.any_cons, List.any_nil,
    Bool.not_eq_false, Bool.or_eq_true, Bool.and_eq_true, decide_eq_true_eq, Bool.false_eq_true,
    or_false] at hblank
  omega

theorem isBlank_of_isDigit {c : Char} (h : c.isDigit = true) : isBlank c = false := by
  rw [Char.isDigit_iff_toNat] at h
  have hzero : '0'.toNat = 48 := rfl
  have hnine : '9'.toNat = 57 := rfl
  exact isBlank_of_visible (by omega) (by omega)

theorem isBlank_of_isAlpha {c : Char} (h : c.isAlpha = true) : isBlank c = false := by
  have hranges : (65 ≤ c.toNat ∧ c.toNat ≤ 90) ∨ (97 ≤ c.toNat ∧ c.toNat ≤ 122) := by
    rcases Bool.or_eq_true_iff.1 h with hupper | hlower
    · exact .inl (of_decide_eq_true hupper)
    · obtain ⟨hlow, hhigh⟩ := Bool.and_eq_true_iff.1 hlower
      exact .inr ⟨of_decide_eq_true hlow, of_decide_eq_true hhigh⟩
  exact isBlank_of_visible (by omega) (by omega)

theorem isBlank_of_isNameChar {c : Char} (h : isNameChar c = true) : isBlank c = false := by
  simp only [isNameChar, isNameStart, Bool.or_eq_true, decide_eq_true_eq] at h
  rcases h with (((((((halpha | rfl) | rfl) | hdigit) | rfl) | rfl) | rfl) | rfl) | rfl
  · exact isBlank_of_isAlpha halpha
  · decide
  · decide
  · exact isBlank_of_isDigit hdigit
  all_goals decide

theorem isBlank_of_isOperatorChar {c : Char} (h : isOperatorChar c = true) :
    isBlank c = false := by
  simp only [isOperatorChar, List.mem_cons, List.not_mem_nil, or_false, decide_eq_true_eq] at h
  rcases h with rfl | rfl | rfl | rfl | rfl | rfl | rfl | rfl | rfl | rfl | rfl <;> decide

/-- The characters of a numeral are digits and its point. -/
theorem Numeral.Plain.isNumeralChar {n : Numeral} (h : n.Plain) :
    ∀ c ∈ n.lexeme, Lamlet.isNumeralChar c = true := by
  intro c hc
  obtain ⟨whole, fraction⟩ := n
  obtain ⟨-, hwhole, hfraction⟩ := h
  cases fraction with
  | none => simp [Lamlet.isNumeralChar, hwhole c hc]
  | some digits =>
    rcases List.mem_append.1 hc with hc | hc
    · simp [Lamlet.isNumeralChar, hwhole c hc]
    · rcases List.mem_cons.1 hc with rfl | hc
      · decide
      · simp [Lamlet.isNumeralChar, hfraction c hc]

/-- Only text literals have blanks among their characters. -/
theorem Lexeme.solid {t : Token} {lexeme : List Char} (h : Lexeme t lexeme)
    (ht : ∀ s, t ≠ .text s) : ∀ c ∈ lexeme, isBlank c = false := by
  intro c hc
  cases h with
  | text => exact absurd rfl (ht _)
  | number hplain =>
    have hchar := hplain.isNumeralChar c hc
    simp only [isNumeralChar, Bool.or_eq_true, decide_eq_true_eq] at hchar
    rcases hchar with hdigit | rfl
    · exact isBlank_of_isDigit hdigit
    · decide
  | keyword k =>
    obtain ⟨d, ds, hword, hstart, hchars⟩ := word_chars k
    rw [hword] at hc
    refine isBlank_of_isNameChar ?_
    rcases List.mem_cons.1 hc with rfl | hc
    · simp [isNameChar, hstart]
    · exact List.all_eq_true.1 hchars c hc
  | name hstart hchars =>
    refine isBlank_of_isNameChar ?_
    rcases List.mem_cons.1 hc with rfl | hc
    · simp [isNameChar, hstart]
    · exact hchars c hc
  | mark m =>
    obtain rfl := List.mem_singleton.1 hc
    cases m <;> decide
  | operator _ hchars => exact isBlank_of_isOperatorChar (hchars c hc)

theorem Quoted.exists_last {content body : List Char} (h : Quoted content body) :
    ∃ init, body = init ++ ['"'] := by
  induction h with
  | close => exact ⟨[], rfl⟩
  | @plain c _ _ _ _ _ ih =>
    obtain ⟨init, rfl⟩ := ih
    exact ⟨c :: init, rfl⟩
  | @escaped c _ _ _ ih =>
    obtain ⟨init, rfl⟩ := ih
    exact ⟨'\\' :: c :: init, rfl⟩

theorem Lexeme.ne_nil {t : Token} {lexeme : List Char} (h : Lexeme t lexeme) : lexeme ≠ [] :=
  (scan_token_eq_append (scan_of_lexeme h (halts_nil _))).1

/-- A lexeme starts with a character that is not blank. -/
theorem Lexeme.exists_first {t : Token} {lexeme : List Char} (h : Lexeme t lexeme) :
    ∃ c cs, lexeme = c :: cs ∧ isBlank c = false := by
  by_cases ht : ∃ s, t = .text s
  · obtain ⟨s, rfl⟩ := ht
    cases h with
    | text => exact ⟨'"', _, rfl, by decide⟩
  · have hsolid := h.solid fun s hs => ht ⟨s, hs⟩
    obtain ⟨c, cs, rfl⟩ := List.exists_cons_of_ne_nil h.ne_nil
    exact ⟨c, cs, rfl, hsolid c (by simp)⟩

/-- A lexeme ends in a character that is not blank. -/
theorem Lexeme.exists_last {t : Token} {lexeme : List Char} (h : Lexeme t lexeme) :
    ∃ init c, lexeme = init ++ [c] ∧ isBlank c = false := by
  by_cases ht : ∃ s, t = .text s
  · obtain ⟨s, rfl⟩ := ht
    cases h with
    | text hquoted =>
      obtain ⟨init, rfl⟩ := hquoted.exists_last
      exact ⟨'"' :: init, '"', rfl, by decide⟩
  · have hsolid := h.solid fun s hs => ht ⟨s, hs⟩
    obtain ⟨init, c, rfl⟩ := (List.eq_nil_or_concat' lexeme).resolve_left h.ne_nil
    exact ⟨init, c, rfl, hsolid c (by simp)⟩

theorem Quoted.mem_content {content body : List Char} (h : Quoted content body) {c : Char}
    (hc : c ∈ body) : c = '"' ∨ c = '\\' ∨ c ∈ content := by
  induction h with
  | close => exact .inl (List.mem_singleton.1 hc)
  | plain _ _ _ ih =>
    rcases List.mem_cons.1 hc with rfl | hc
    · exact .inr (.inr (by simp))
    · rcases ih hc with rfl | rfl | hmem <;> simp [*]
  | escaped _ ih =>
    rcases List.mem_cons.1 hc with rfl | hc
    · exact .inr (.inl rfl)
    · rcases List.mem_cons.1 hc with rfl | hc
      · exact .inr (.inr (by simp))
      · rcases ih hc with rfl | rfl | hmem <;> simp [*]

/-- No text among the tokens goes on over the end of a line. -/
def OneLined (ts : List Token) : Prop := ∀ s, .text s ∈ ts → '\n' ∉ s.toList

/-- Lexemes have no newline but in the text that they denote. -/
theorem Lexeme.newline_notMem {t : Token} {lexeme : List Char} (h : Lexeme t lexeme)
    (ht : OneLined [t]) : '\n' ∉ lexeme := by
  intro hmem
  -- in a literal the newline would be in its text, and elsewhere it would be a blank
  by_cases htext : ∃ s, t = .text s
  · obtain ⟨s, rfl⟩ := htext
    cases h with
    | @text content body hquoted =>
      have hcontent := ht _ List.mem_cons_self
      rw [String.toList_ofList] at hcontent
      rcases List.mem_cons.1 hmem with hquote | hmem
      · cases hquote
      · rcases hquoted.mem_content hmem with hquote | hback | hmem
        · cases hquote
        · cases hback
        · exact hcontent hmem
  · have hsolid := h.solid (fun s hs => htext ⟨s, hs⟩) '\n' hmem
    exact absurd hsolid (by decide)

/-! ### Blanks around a text -/

namespace Text

theorem dropWhile_append_cons {p : Char → Bool} {c : Char} (h : p c = false)
    (cs ds : List Char) : (cs ++ c :: ds).dropWhile p = cs.dropWhile p ++ c :: ds := by
  induction cs with
  | nil => simp [h]
  | cons d cs ih => by_cases hd : p d = true <;> simp [hd, ih]

theorem dropEnd_append_cons {p : Char → Bool} {c : Char} (h : p c = false)
    (cs ds : List Char) : dropEnd p (cs ++ c :: ds) = cs ++ c :: dropEnd p ds := by
  simp [dropEnd, dropWhile_append_cons h]

/-- What is cut off at the end. -/
theorem exists_dropEnd_append (p : Char → Bool) (cs : List Char) :
    ∃ blanks, cs = dropEnd p cs ++ blanks := by
  refine ⟨(cs.reverse.takeWhile p).reverse, ?_⟩
  rw [dropEnd, ← List.reverse_append, List.takeWhile_append_dropWhile, List.reverse_reverse]

end Text

theorem isBlank_of_isGapChar {c : Char} (h : isGapChar c = true) : isBlank c = true := by
  simp only [isGapChar, Bool.or_eq_true, decide_eq_true_eq] at h
  rcases h with (rfl | rfl) | rfl <;> decide

theorem Gap.dropWhile_isBlank {gap : List Char} (h : Gap gap) : Gap (gap.dropWhile isBlank) := by
  induction h with
  | nil => exact .nil
  | blank hc _ ih => simpa [isBlank_of_isGapChar hc] using ih
  | comment hline hgap _ =>
    rw [List.dropWhile_cons_of_neg (by decide)]
    exact .comment hline hgap

/-- A gap can be cut off anywhere. -/
theorem Gap.lastGap_of_append {gap left right : List Char} (h : Gap gap)
    (hsplit : gap = left ++ right) : LastGap left := by
  induction h generalizing left with
  | nil =>
    obtain ⟨rfl, -⟩ := List.append_eq_nil_iff.1 hsplit.symm
    exact .gap .nil
  | @blank c gap hc _ ih =>
    cases left with
    | nil => exact .gap .nil
    | cons d left =>
      obtain ⟨rfl, hrest⟩ := List.cons.inj hsplit
      cases ih hrest with
      | gap hgap => exact .gap (.blank hc hgap)
      | comment hgap hline => exact .comment (.blank hc hgap) hline
  | @comment line gap hline _ ih =>
    cases left with
    | nil => exact .gap .nil
    | cons d left =>
      obtain ⟨rfl, hrest⟩ := List.cons.inj hsplit
      -- the cut is inside the comment, or after it
      rcases List.append_eq_append_iff.1 hrest with ⟨left', rfl, hleft⟩ | ⟨line', rfl, -⟩
      · cases left' with
        | nil => simpa using LastGap.comment .nil hline
        | cons e left' =>
          obtain ⟨rfl, hgap⟩ := List.cons.inj hleft
          cases ih hgap with
          | gap hgap' => exact .gap (.comment hline hgap')
          | comment hgap' hline' =>
            have := LastGap.comment (.comment hline hgap') hline'
            simpa using this
      · exact .comment .nil fun hmem => hline (List.mem_append_left _ hmem)

theorem LastGap.of_append {left right : List Char} (h : LastGap (left ++ right)) :
    LastGap left := by
  generalize hsplit : left ++ right = gap at h
  cases h with
  | gap h => exact h.lastGap_of_append hsplit.symm
  | @comment gap line hgap hline =>
    rcases List.append_eq_append_iff.1 hsplit with ⟨gap', rfl, -⟩ | ⟨left', rfl, hleft⟩
    · exact hgap.lastGap_of_append rfl
    · cases left' with
      | nil => simpa using LastGap.gap hgap
      | cons e left' =>
        obtain ⟨rfl, rfl⟩ := List.cons.inj hleft
        exact .comment hgap fun hmem => hline (List.mem_append_left _ hmem)

theorem LastGap.dropWhile_isBlank {gap : List Char} (h : LastGap gap) :
    LastGap (gap.dropWhile isBlank) := by
  cases h with
  | gap h => exact .gap h.dropWhile_isBlank
  | comment hgap hline =>
    rw [dropWhile_append_cons (by decide)]
    exact .comment hgap.dropWhile_isBlank hline

/-- A lexeme that cannot go on cannot go on before less either. -/
theorem Munched.of_append {lexeme rest rest' : List Char} (h : Munched lexeme (rest ++ rest')) :
    Munched lexeme rest := by
  intro c hc
  refine h c ?_
  cases rest with
  | nil => cases hc
  | cons d rest => exact hc

namespace Lexes

variable {cs : List Char} {ts : List Token}

theorem trimEnd (h : Lexes cs ts) : Lexes (Text.trimEnd cs) ts := by
  refine Lexes.induction (motive := fun cs ts => Lexes (Text.trimEnd cs) ts) ?_ ?_ h
  · intro gap hgap
    obtain ⟨blanks, hblanks⟩ := exists_dropEnd_append isBlank gap
    rw [hblanks] at hgap
    exact .of_lastGap hgap.of_append
  · intro gap lexeme rest t ts hgap hlexeme hmunched _ ih
    obtain ⟨init, c, rfl, hc⟩ := hlexeme.exists_last
    -- no lexeme ends in a blank, so that only what is behind it is cut
    have hcut : Text.trimEnd (gap ++ (init ++ [c] ++ rest))
        = gap ++ (init ++ [c] ++ Text.trimEnd rest) := by
      have := dropEnd_append_cons hc (gap ++ init) rest
      simpa [Text.trimEnd] using this
    obtain ⟨blanks, hblanks⟩ := exists_dropEnd_append isBlank rest
    rw [hblanks] at hmunched
    rw [hcut]
    exact .piece hgap hlexeme hmunched.of_append ih

theorem dropWhile_isBlank (h : Lexes cs ts) : Lexes (cs.dropWhile isBlank) ts := by
  refine Lexes.induction (motive := fun cs ts => Lexes (cs.dropWhile isBlank) ts) ?_ ?_ h
  · exact fun gap hgap => .of_lastGap hgap.dropWhile_isBlank
  · intro gap lexeme rest t ts hgap hlexeme hmunched hrest _
    obtain ⟨c, cs, rfl, hc⟩ := hlexeme.exists_first
    rw [List.cons_append, dropWhile_append_cons hc]
    exact .piece hgap.dropWhile_isBlank hlexeme hmunched hrest

/-- **The blanks around a text do not count.** -/
theorem trim (h : Lexes cs ts) : Lexes (Text.trim cs) ts :=
  h.dropWhile_isBlank.trimEnd

end Lexes

/-! ### Newlines between tokens -/

theorem append_eq_append_cons {α : Type} {xs ys left right : List α} {a : α}
    (h : xs ++ ys = left ++ a :: right) :
    (∃ mid, xs = left ++ a :: mid ∧ right = mid ++ ys) ∨
      ∃ mid, left = xs ++ mid ∧ ys = mid ++ a :: right := by
  rcases List.append_eq_append_iff.1 h with ⟨mid, hleft, hys⟩ | ⟨mid, hxs, hright⟩
  · exact .inr ⟨mid, hleft, hys⟩
  · cases mid with
    | nil => exact .inr ⟨[], by simpa using hxs.symm, by simpa using hright.symm⟩
    | cons b mid =>
      obtain ⟨rfl, rfl⟩ := List.cons.inj hright
      exact .inl ⟨mid, hxs, rfl⟩

theorem Gap.append {gap gap' : List Char} (h : Gap gap) (h' : Gap gap') : Gap (gap ++ gap') := by
  induction h with
  | nil => exact h'
  | blank hc _ ih => exact .blank hc ih
  | comment hline _ ih =>
    have := Gap.comment hline ih
    simpa using this

/-- A newline ends the last comment, if it is still open. -/
theorem LastGap.append_newline {gap : List Char} (h : LastGap gap) : Gap (gap ++ ['\n']) := by
  cases h with
  | gap h => exact h.append (.blank rfl .nil)
  | comment hgap hline =>
    have := hgap.append (.comment hline .nil)
    simpa using this

/-- A gap goes on after each of its newlines. -/
theorem Gap.of_append_newline {gap left right : List Char} (h : Gap gap)
    (hsplit : gap = left ++ '\n' :: right) : Gap right := by
  induction h generalizing left with
  | nil => simp at hsplit
  | @blank c gap _ hgap ih =>
    cases left with
    | nil =>
      obtain ⟨-, rfl⟩ := List.cons.inj hsplit
      exact hgap
    | cons d left => exact ih (List.cons.inj hsplit).2
  | @comment line gap hline hgap ih =>
    cases left with
    | nil => cases (List.cons.inj hsplit).1
    | cons d left =>
      rcases append_eq_append_cons (List.cons.inj hsplit).2 with ⟨mid, rfl, -⟩ | ⟨mid, -, hrest⟩
      · exact absurd (by simp) hline
      · -- the newline is the one that ends the comment, or comes later
        cases mid with
        | nil =>
          obtain ⟨-, rfl⟩ := List.cons.inj hrest
          exact hgap
        | cons e mid => exact ih (List.cons.inj hrest).2

theorem LastGap.of_append_newline {left right : List Char} (h : LastGap (left ++ '\n' :: right)) :
    LastGap right := by
  generalize hsplit : left ++ '\n' :: right = gap at h
  cases h with
  | gap h => exact .gap (h.of_append_newline hsplit.symm)
  | @comment gap line hgap hline =>
    rcases append_eq_append_cons hsplit.symm with ⟨mid, hmid, rfl⟩ | ⟨mid, -, hmid⟩
    · exact .comment (hgap.of_append_newline hmid) hline
    · cases mid with
      | nil => cases (List.cons.inj hmid).1
      | cons e mid =>
        obtain ⟨-, rfl⟩ := List.cons.inj hmid
        exact absurd (by simp) hline

/-- No lexeme goes on with a newline. -/
theorem Munched.append_newline {lexeme rest : List Char} (h : Munched lexeme rest)
    (cs : List Char) : Munched lexeme (rest ++ '\n' :: cs) := by
  intro c hc t' ht'
  cases rest with
  | nil =>
    obtain rfl : '\n' = c := Option.some.inj hc
    obtain ⟨init, d, hlast, hd⟩ := ht'.exists_last
    obtain ⟨-, hlast⟩ := List.append_inj' hlast rfl
    obtain rfl := List.head_eq_of_cons_eq hlast
    exact absurd hd (by decide)
  | cons d rest => exact h c hc t' ht'

namespace Lexes

variable {cs ds : List Char} {ts us : List Token}

/-- Texts with a newline between them lex one after the other. -/
theorem append_newline (h : Lexes cs ts) (h' : Lexes ds us) :
    Lexes (cs ++ '\n' :: ds) (ts ++ us) := by
  refine Lexes.induction (motive := fun cs ts => Lexes (cs ++ '\n' :: ds) (ts ++ us)) ?_ ?_ h
  · intro gap hgap
    have := Lexes.gap_append hgap.append_newline h'
    simpa using this
  · intro gap lexeme rest t ts hgap hlexeme hmunched _ ih
    have := Lexes.piece hgap hlexeme (hmunched.append_newline ds) ih
    simpa using this

/-- A text lexes before and after each newline that is in no text literal. -/
theorem split_newline (h : Lexes (cs ++ '\n' :: ds) ts) (hts : OneLined ts) :
    ∃ ts₁ ts₂, Lexes cs ts₁ ∧ Lexes ds ts₂ ∧ ts = ts₁ ++ ts₂ := by
  generalize hsplit : cs ++ '\n' :: ds = all at h
  refine Lexes.induction (motive := fun all ts => OneLined ts → ∀ cs, cs ++ '\n' :: ds = all →
    ∃ ts₁ ts₂, Lexes cs ts₁ ∧ Lexes ds ts₂ ∧ ts = ts₁ ++ ts₂) ?_ ?_ h hts cs hsplit
  · rintro gap hgap - cs rfl
    exact ⟨[], [], .of_lastGap hgap.of_append, .of_lastGap hgap.of_append_newline, rfl⟩
  · intro gap lexeme rest t ts hgap hlexeme hmunched hrest ih hts cs hsplit
    have hnewline := hlexeme.newline_notMem fun s hs => hts s (by simp_all)
    -- the newline is in the gap, or after the lexeme
    rcases append_eq_append_cons hsplit.symm with ⟨mid, hmid, rfl⟩ | ⟨mid, rfl, hmid⟩
    · refine ⟨[], t :: ts, .of_lastGap (hgap.lastGap_of_append hmid), ?_, rfl⟩
      exact .piece (hgap.of_append_newline hmid) hlexeme hmunched hrest
    · rcases append_eq_append_cons hmid with ⟨mid', rfl, -⟩ | ⟨mid', rfl, rfl⟩
      · exact absurd (by simp) hnewline
      · obtain ⟨ts₁, ts₂, h₁, h₂, rfl⟩ := ih (fun s hs => hts s (by simp_all)) mid' rfl
        exact ⟨t :: ts₁, ts₂, .piece hgap hlexeme hmunched.of_append h₁, h₂, rfl⟩

end Lexes

/-! ### Line by line -/

/-- The tokens of a text, as far as it can be read. -/
def tokensOf (source : String) : List Token := (lex source).tokens.map (·.token)

/-- The lines of a text, as they are typed. -/
def linesOf (source : String) : List String := (typedLines source.toList).map String.ofList

theorem Lexes.tokensOf_eq {source : String} {ts : List Token} (h : Lexes source.toList ts) :
    tokensOf source = ts :=
  h.lex.1

theorem lexes_tokensOf {source : String} (h : (lex source).trouble = none) :
    Lexes source.toList (tokensOf source) :=
  Lexes.of_lex h

namespace Lexes

variable {cs : List Char} {ts : List Token}

theorem tokensOf_ofList (h : Lexes cs ts) : tokensOf (String.ofList cs) = ts := by
  rw [← String.toList_ofList (l := cs)] at h
  exact h.tokensOf_eq

theorem splitLines (h : Lexes cs ts) (hts : OneLined ts) :
    (∀ line ∈ Text.splitLines cs, Lexes line (tokensOf (String.ofList line))) ∧
      (Text.splitLines cs).flatMap (fun line => tokensOf (String.ofList line)) = ts := by
  induction cs using line_induction generalizing ts with
  | last line hline =>
    rw [splitLines_of_notMem hline, List.forall_mem_singleton, List.flatMap_singleton,
      h.tokensOf_ofList]
    exact ⟨h, rfl⟩
  | more line rest hline ih =>
    -- the newline is in no literal, so the tokens split there
    obtain ⟨ts₁, ts₂, h₁, h₂, rfl⟩ := h.split_newline hts
    obtain ⟨hall, htokens⟩ := ih h₂ fun s hs => hts s (List.mem_append_right ts₁ hs)
    rw [splitLines_append hline, List.forall_mem_cons, List.flatMap_cons, htokens,
      h₁.tokensOf_ofList]
    exact ⟨⟨h₁, hall⟩, rfl⟩

/-- **A text lexes line by line.** -/
theorem linesOf {source : String} (h : Lexes source.toList ts) (hts : OneLined ts) :
    (∀ line ∈ Lamlet.linesOf source, Lexes line.toList (tokensOf line)) ∧
      (Lamlet.linesOf source).flatMap tokensOf = ts := by
  obtain ⟨hall, htokens⟩ := h.splitLines hts
  have hlines : (∀ line ∈ typedLines source.toList, Lexes line (tokensOf (String.ofList line))) ∧
      (typedLines source.toList).flatMap (fun line => tokensOf (String.ofList line)) = ts := by
    rcases splitLines_eq_typedLines source.toList with hsame | hlast
    · rw [hsame] at hall htokens
      exact ⟨hall, htokens⟩
    · -- the line that is left out has no tokens
      have hnone : tokensOf (String.ofList []) = [] := Lexes.nil.tokensOf_ofList
      rw [hlast] at hall htokens
      simp only [List.flatMap_append, List.flatMap_singleton, hnone, List.append_nil] at htokens
      exact ⟨fun line hline => hall line (List.mem_append_left _ hline), htokens⟩
  refine ⟨?_, by rw [Lamlet.linesOf, List.flatMap_map]; exact hlines.2⟩
  intro line hline
  obtain ⟨cs, hcs, rfl⟩ := List.mem_map.1 hline
  rw [String.toList_ofList]
  exact hlines.1 cs hcs

/-- Lines that lex do so together. -/
theorem joinWith {lines : List String} (h : ∀ line ∈ lines, Lexes line.toList (tokensOf line)) :
    Lexes (Text.joinWith "\n" lines).toList (lines.flatMap tokensOf) := by
  induction lines with
  | nil => exact .nil
  | cons line lines ih =>
    obtain ⟨hline, hlines⟩ := List.forall_mem_cons.1 h
    cases lines with
    | nil => simpa [Text.joinWith] using hline
    | cons line' lines =>
      have := hline.append_newline (ih hlines)
      simpa [Text.joinWith] using this

end Lexes

end Lamlet
