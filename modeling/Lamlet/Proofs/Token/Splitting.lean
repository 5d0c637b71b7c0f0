import Lamlet.Proofs.Token.Lexing

/-!
# How a text splits into tokens

The lexical rules say which characters make up a gap and which are the lexeme of a token,
and nothing about how to find them.  Every text splits into gaps and lexemes, no lexeme
being one that the next character extends, up to its end or to a place where no token can be
read.  The tokens and the trouble of such a split are what the lexer yields.

## Main definitions

* `Gap`, `LastGap` — the gaps between tokens, and at the end of a text.
* `Quoted`, `Lexeme` — the lexemes, each with its token.
* `Munched` — no lexeme goes on with the next character.
* `Piece`, `Splits`, `Ending` — a text in pieces, and how the pieces end.
* `Lexer.Yields` — what a lexer yields when it is asked for one token after the other.

## Main results

* `scan_eq_token_iff` — the scanner reads exactly the lexemes that cannot be extended.
* `Splits.lex`, `exists_splits` — a split tells what is read, and every text has one.
* `yields_iff_splits` — **the lexer yields the tokens of the split of a text.**
-/

namespace Lamlet

/-! ### The rules -/

/-- A sequence of blanks and comments, each comment with the newline that ends it. -/
inductive Gap : List Char → Prop where
  | nil : Gap []
  | blank {c : Char} {gap : List Char} : isGapChar c = true → Gap gap → Gap (c :: gap)
  | comment {line gap : List Char} :
      '\n' ∉ line → Gap gap → Gap ('#' :: (line ++ '\n' :: gap))

/-- A gap at the end of a text, where no newline needs to end the last comment. -/
inductive LastGap : List Char → Prop where
  | gap {gap : List Char} : Gap gap → LastGap gap
  | comment {gap line : List Char} : Gap gap → '\n' ∉ line → LastGap (gap ++ '#' :: line)

/-- The characters that a text literal denotes, and those of the literal after its opening
mark.  A backslash makes the next character stand for itself. -/
inductive Quoted : List Char → List Char → Prop where
  | close : Quoted [] ['"']
  | plain {c : Char} {content body : List Char} :
      c ≠ '"' → c ≠ '\\' → Quoted content body → Quoted (c :: content) (c :: body)
  | escaped {c : Char} {content body : List Char} :
      Quoted content body → Quoted (c :: content) ('\\' :: c :: body)

/-- The lexemes of tokens. -/
inductive Lexeme : Token → List Char → Prop where
  | text {content body : List Char} :
      Quoted content body → Lexeme (.text (String.ofList content)) ('"' :: body)
  | number {n : Numeral} : n.Plain → Lexeme (.number n.value) n.lexeme
  | keyword (k : Keyword) : Lexeme (.keyword k) k.word.toList
  | name {c : Char} {cs : List Char} :
      isNameStart c = true → (∀ d ∈ cs, isNameChar d = true) →
      (∀ k : Keyword, k.word ≠ String.ofList (c :: cs)) →
      Lexeme (.name (String.ofList (c :: cs))) (c :: cs)
  | mark (m : Punctuation) : Lexeme (.mark m) [m.toChar]
  | operator {cs : List Char} :
      cs ≠ [] → (∀ c ∈ cs, isOperatorChar c = true) → Lexeme (.operator (String.ofList cs)) cs

/-- No lexeme goes on with the next character. -/
def Munched (lexeme rest : List Char) : Prop :=
  ∀ c ∈ rest.head?, ∀ t, ¬ Lexeme t (lexeme ++ [c])

/-! ### Gaps -/

/-- The characters that gaps start with. -/
def isGapStart (c : Char) : Bool := isGapChar c || c = '#'

theorem splitGap_comment {line : List Char} (h : '\n' ∉ line) (cs : List Char) :
    splitGap true (line ++ '\n' :: cs)
      = (line ++ '\n' :: (splitGap false cs).1, (splitGap false cs).2) := by
  induction line with
  | nil => simp [splitGap]
  | cons c line ih =>
    obtain ⟨hc, hline⟩ := List.ne_and_not_mem_of_not_mem_cons h
    have hne : (c != '\n') = true := by simp [Ne.symm hc]
    simp only [List.cons_append, splitGap, hne, ih hline]

theorem splitGap_lastComment {line : List Char} (h : '\n' ∉ line) :
    splitGap true line = (line, []) := by
  induction line with
  | nil => rfl
  | cons c line ih =>
    obtain ⟨hc, hline⟩ := List.ne_and_not_mem_of_not_mem_cons h
    have hne : (c != '\n') = true := by simp [Ne.symm hc]
    simp only [splitGap, hne, ih hline]

/-- A gap is skipped whole, and what is found after it. -/
theorem splitGap_append_of_gap {gap : List Char} (h : Gap gap) (cs : List Char) :
    splitGap false (gap ++ cs) = (gap ++ (splitGap false cs).1, (splitGap false cs).2) := by
  induction h with
  | nil => rfl
  | @blank c gap hc _ ih =>
    have hhash : c ≠ '#' := by
      rintro rfl
      simp [isGapChar] at hc
    simp [splitGap, hc, hhash, ih]
  | @comment line gap hline _ ih =>
    have hsplit := splitGap_comment hline (gap ++ cs)
    rw [ih] at hsplit
    simp [splitGap, hsplit]

theorem splitGap_of_halts {cs : List Char} (h : Halts isGapStart cs) :
    splitGap false cs = ([], cs) := by
  cases cs with
  | nil => rfl
  | cons c cs =>
    have hc := h c (by simp)
    unfold isGapStart at hc
    simp only [splitGap, hc]
    rfl

theorem splitGap_of_lastGap {gap : List Char} (h : LastGap gap) :
    splitGap false gap = (gap, []) := by
  cases h with
  | gap h =>
    have hsplit := splitGap_append_of_gap h []
    simpa [splitGap] using hsplit
  | comment hgap hline =>
    rw [splitGap_append_of_gap hgap]
    simp [splitGap, splitGap_lastComment hline]

/-- Every text starts with a gap that cannot be extended, or is one. -/
theorem exists_gap (cs : List Char) :
    LastGap cs ∨ ∃ gap rest, cs = gap ++ rest ∧ Gap gap ∧ rest ≠ [] ∧ Halts isGapStart rest := by
  induction hlength : cs.length using Nat.strongRecOn generalizing cs with
  | ind length ih =>
    cases cs with
    | nil => exact .inl (.gap .nil)
    | cons c cs =>
      by_cases hblank : isGapChar c = true
      · rcases ih cs.length (by simp [← hlength]) cs rfl with hlast | ⟨gap, rest, rfl, hgap, hrest⟩
        · cases hlast with
          | gap h => exact .inl (.gap (.blank hblank h))
          | comment h hline => exact .inl (.comment (.blank hblank h) hline)
        · exact .inr ⟨c :: gap, rest, rfl, .blank hblank hgap, hrest⟩
      by_cases hhash : c = '#'
      · subst hhash
        by_cases hnewline : '\n' ∈ cs
        · -- the comment is closed, and the gap may go on after it
          obtain ⟨line, cs', rfl, hline⟩ := List.eq_append_cons_of_mem hnewline
          rcases ih cs'.length (by simp [← hlength]; omega) cs' rfl with
            hlast | ⟨gap, rest, rfl, hgap, hrest⟩
          · cases hlast with
            | gap h => exact .inl (.gap (.comment hline h))
            | @comment gap line' h hline' =>
              have := LastGap.comment (.comment hline h) hline'
              exact .inl (by simpa using this)
          · exact .inr ⟨'#' :: (line ++ '\n' :: gap), rest, by simp, .comment hline hgap, hrest⟩
        · exact .inl (.comment .nil hnewline)
      · refine .inr ⟨[], c :: cs, rfl, .nil, by simp, halts_cons cs ?_⟩
        simp [isGapStart, hblank, hhash]

/-! ### Text literals -/

/-- A text literal opened before these characters is never closed. -/
def Unclosed (cs : List Char) : Prop := ∀ content body rest, Quoted content body → cs ≠ body ++ rest

theorem textBody?_of_quoted {content body : List Char} (h : Quoted content body)
    (rest : List Char) : textBody? false (body ++ rest) = some ⟨content, body, rest⟩ := by
  induction h with
  | close => simp [textBody?]
  | plain hquote hback _ ih => simp [textBody?, hquote, hback, ih]
  | escaped _ ih => simp [textBody?, ih]

/-- What is read is a literal, with the backslash in front of it if one has been read. -/
theorem quoted_of_textBody? {escaped : Bool} {cs : List Char} {b : TextBody}
    (h : textBody? escaped cs = some b) :
    Quoted b.content ((if escaped then ['\\'] else []) ++ b.lexeme) := by
  fun_induction textBody? escaped cs generalizing b with
  | case1 => simp at h
  | case2 c cs ih =>
    obtain ⟨b', hb', rfl⟩ := Option.map_eq_some_iff.1 h
    exact .escaped (ih hb')
  | case3 cs ih =>
    obtain ⟨b', hb', rfl⟩ := Option.map_eq_some_iff.1 h
    exact ih hb'
  | case4 cs hc =>
    obtain rfl := Option.some.inj h
    exact .close
  | case5 c cs hback hquote ih =>
    obtain ⟨b', hb', rfl⟩ := Option.map_eq_some_iff.1 h
    exact .plain hquote hback (ih hb')

theorem textBody?_eq_none_iff (cs : List Char) : textBody? false cs = none ↔ Unclosed cs := by
  constructor
  · rintro hnone content body rest hquoted rfl
    simp [textBody?_of_quoted hquoted] at hnone
  · intro hunclosed
    by_contra hread
    obtain ⟨b, hb⟩ := Option.ne_none_iff_exists'.1 hread
    exact hunclosed _ _ _ (quoted_of_textBody? hb) (textBody?_append hb).symm

/-! ### Lexemes as long as possible -/

/-- The characters that go on with a lexeme, by the token that it is so far. -/
def Token.goesOn (t : Token) (lexeme : List Char) (c : Char) : Bool :=
  match t with
  | .text _ | .mark _ => false
  | .number _ => c.isDigit || ('.' ∉ lexeme && c = '.')
  | .name _ | .keyword _ => isNameChar c
  | .operator _ => isOperatorChar c

theorem halts_dropWhile (p : Char → Bool) (cs : List Char) : Halts p (cs.dropWhile p) := by
  induction cs with
  | nil => exact halts_nil p
  | cons c cs ih =>
    by_cases hc : p c = true
    · simpa [hc] using ih
    · simpa [hc] using halts_cons cs (by simpa using hc)

namespace Numeral

/-- Plain numerals have a point among their characters if they have a fraction. -/
theorem Plain.point_mem_iff {n : Numeral} (h : n.Plain) :
    '.' ∈ n.lexeme ↔ n.fraction.isSome = true := by
  have hwhole : '.' ∉ n.whole := fun hmem => absurd (h.isDigit_whole _ hmem) (by decide)
  obtain ⟨whole, fraction⟩ := n
  cases fraction <;> simp [lexeme, hwhole]

theorem Plain.goesOn_eq {n : Numeral} (h : n.Plain) (c : Char) :
    (Token.number n.value).goesOn n.lexeme c = n.goesOn c := by
  have hpoint := h.point_mem_iff
  obtain ⟨whole, fraction⟩ := n
  cases fraction <;> simp_all [Token.goesOn, goesOn]

/-- A character that goes on with a numeral makes another one. -/
theorem Plain.exists_snoc {n : Numeral} (h : n.Plain) {c : Char} (hc : n.goesOn c = true) :
    ∃ n' : Numeral, n'.Plain ∧ n'.lexeme = n.lexeme ++ [c] := by
  obtain ⟨whole, fraction⟩ := n
  obtain ⟨hne, hwhole, hfraction⟩ := h
  simp only [goesOn, Bool.or_eq_true, Bool.and_eq_true, decide_eq_true_eq] at hc
  cases fraction with
  | none =>
    rcases hc with hdigit | ⟨-, rfl⟩
    · refine ⟨⟨whole ++ [c], none⟩, ⟨by simp, ?_, by simp⟩, rfl⟩
      simpa [or_imp, forall_and, hdigit] using hwhole
    · -- the point, which may come once
      exact ⟨⟨whole, some []⟩, ⟨hne, hwhole, by simp⟩, rfl⟩
  | some digits =>
    have hdigit : c.isDigit = true := by simpa using hc
    refine ⟨⟨whole, some (digits ++ [c])⟩, ⟨hne, hwhole, ?_⟩, by simp [lexeme]⟩
    simpa [or_imp, forall_and, hdigit] using hfraction

end Numeral

/-- The longest number literal is one, and cannot go on. -/
theorem plain_splitNumeral {c : Char} (hc : c.isDigit = true) (cs : List Char) :
    (splitNumeral (c :: cs)).1.Plain
      ∧ Halts (splitNumeral (c :: cs)).1.goesOn (splitNumeral (c :: cs)).2 := by
  have hwhole : (c :: cs).takeWhile Char.isDigit ≠ [] := by simp [hc]
  have hdigits : ∀ ds : List Char, ∀ d ∈ ds.takeWhile Char.isDigit, d.isDigit = true :=
    fun ds d hd => List.mem_takeWhile_imp hd
  have hhalts := halts_dropWhile Char.isDigit (c :: cs)
  unfold splitNumeral
  split
  · next rest hrest =>
    refine ⟨⟨hwhole, hdigits _, hdigits rest⟩, fun d hd => ?_⟩
    simp [Numeral.goesOn, halts_dropWhile Char.isDigit rest d hd]
  · next rest hpoint =>
    refine ⟨⟨hwhole, hdigits _, by simp⟩, fun d hd => ?_⟩
    -- a point behind the digits would have been taken
    have hne : d ≠ '.' := by
      rintro rfl
      obtain ⟨ds, hds⟩ := List.head?_eq_some_iff.1 hd
      exact hpoint ds hds
    simp [Numeral.goesOn, hhalts d hd, hne]

/-- A run of name characters is the lexeme of a name or keyword. -/
theorem lexeme_nameToken {c : Char} {cs : List Char} (hc : isNameStart c = true)
    (hcs : ∀ d ∈ cs, isNameChar d = true) : Lexeme (nameToken (c :: cs)) (c :: cs) := by
  simp only [nameToken]
  split
  · next k hk =>
    have hword := Keyword.word_of_ofName? hk
    have hlexeme := Lexeme.keyword k
    rwa [hword, String.toList_ofList] at hlexeme
  · next hnone =>
    refine .name hc hcs fun k hk => ?_
    rw [← hk, Keyword.ofName?_word] at hnone
    simp at hnone

theorem nameToken_goesOn (run lexeme : List Char) :
    (nameToken run).goesOn lexeme = isNameChar := by
  simp only [nameToken]
  split <;> rfl

/-- What is scanned is a lexeme, and cannot go on. -/
theorem lexeme_of_scan {cs lexeme rest : List Char} {t : Token}
    (h : scan cs = .token t lexeme rest) : Lexeme t lexeme ∧ Halts (t.goesOn lexeme) rest := by
  cases cs with
  | nil => simp [scan] at h
  | cons c cs =>
    rw [scan] at h
    split at h
    · next hquote =>
      subst hquote
      simp only [scanText] at h
      split at h
      · next b hb =>
        simp only [Scan.token.injEq] at h
        obtain ⟨rfl, rfl, rfl⟩ := h
        exact ⟨.text (quoted_of_textBody? hb), fun _ _ => rfl⟩
      · simp at h
    split at h
    · next hdigit =>
      simp only [Scan.token.injEq] at h
      obtain ⟨rfl, rfl, rfl⟩ := h
      obtain ⟨hplain, hhalts⟩ := plain_splitNumeral hdigit cs
      exact ⟨.number hplain, fun d hd => (hplain.goesOn_eq d).trans (hhalts d hd)⟩
    split at h
    · next hstart =>
      simp only [scanName, Scan.token.injEq] at h
      obtain ⟨rfl, rfl, rfl⟩ := h
      rw [nameToken_goesOn]
      refine ⟨?_, halts_dropWhile _ _⟩
      have hc : isNameChar c = true := by simp [isNameChar, hstart]
      rw [List.takeWhile_cons_of_pos hc]
      exact lexeme_nameToken hstart fun d hd => List.mem_takeWhile_imp hd
    split at h
    · next m hm =>
      simp only [Scan.token.injEq] at h
      obtain ⟨rfl, rfl, rfl⟩ := h
      rw [← Punctuation.toChar_of_ofChar? hm]
      exact ⟨.mark m, fun _ _ => rfl⟩
    split at h
    · next hoperator =>
      simp only [Scan.token.injEq] at h
      obtain ⟨rfl, rfl, rfl⟩ := h
      refine ⟨.operator ?_ fun d hd => List.mem_takeWhile_imp hd, halts_dropWhile _ _⟩
      simp [hoperator]
    · simp at h

/-- A lexeme that cannot go on is scanned as its token. -/
theorem scan_of_lexeme {lexeme rest : List Char} {t : Token} (h : Lexeme t lexeme)
    (hrest : Halts (t.goesOn lexeme) rest) : scan (lexeme ++ rest) = .token t lexeme rest := by
  cases h with
  | text hquoted => simp [scan, scanText, textBody?_of_quoted hquoted]
  | number hplain =>
    exact scan_numeral hplain fun d hd => (hplain.goesOn_eq d).symm.trans (hrest d hd)
  | keyword k => exact scan_keyword k hrest
  | @name c cs hc hcs hword =>
    -- a name that is none of the keywords stays a name
    have hnone : Keyword.ofName? (String.ofList (c :: cs)) = none := by
      by_contra hsome
      obtain ⟨k, hk⟩ := Option.ne_none_iff_exists'.1 hsome
      exact hword k (Keyword.word_of_ofName? hk)
    have hscan := scan_name String.toList_ofList hc hcs hrest
    rwa [String.toList_ofList, nameToken, hnone] at hscan
  | mark m => exact scan_mark m rest
  | operator hne hcs =>
    have hsymbol : String.ofList lexeme ≠ "" := by simpa using hne
    have hscan := scan_operator hsymbol (by simpa using hcs) hrest
    rwa [String.toList_ofList] at hscan

/-- A character that goes on with a lexeme makes another one. -/
theorem Lexeme.exists_snoc {t : Token} {lexeme : List Char} (h : Lexeme t lexeme) {c : Char}
    (hc : t.goesOn lexeme c = true) : ∃ t', Lexeme t' (lexeme ++ [c]) := by
  cases h with
  | text => simp [Token.goesOn] at hc
  | mark => simp [Token.goesOn] at hc
  | number hplain =>
    rw [hplain.goesOn_eq] at hc
    obtain ⟨n, hn, hlexeme⟩ := hplain.exists_snoc hc
    rw [← hlexeme]
    exact ⟨_, .number hn⟩
  | keyword k =>
    obtain ⟨d, ds, hword, hstart, hchars⟩ := word_chars k
    rw [List.all_eq_true] at hchars
    rw [hword]
    refine ⟨_, lexeme_nameToken hstart ?_⟩
    simpa [or_imp, forall_and, Token.goesOn] using ⟨hchars, hc⟩
  | name hstart hchars =>
    refine ⟨_, lexeme_nameToken hstart ?_⟩
    simpa [or_imp, forall_and, Token.goesOn] using ⟨hchars, hc⟩
  | operator hne hchars =>
    refine ⟨_, .operator (by simp) ?_⟩
    simpa [or_imp, forall_and, Token.goesOn] using ⟨hchars, hc⟩

/-- The class of the token tells which characters make a longer lexeme. -/
theorem Lexeme.munched_iff {t : Token} {lexeme : List Char} (h : Lexeme t lexeme)
    (rest : List Char) : Munched lexeme rest ↔ Halts (t.goesOn lexeme) rest := by
  refine forall₂_congr fun c _ => ?_
  constructor
  · intro hnone
    by_contra hc
    obtain ⟨t', ht'⟩ := h.exists_snoc (by simpa using hc)
    exact hnone t' ht'
  · -- the scanner would stop before the character, and after it
    intro hc t' ht'
    have hshort := scan_of_lexeme h (halts_cons [] hc)
    have hlong := scan_of_lexeme ht' (halts_nil _)
    rw [List.append_nil, hshort] at hlong
    simp at hlong

/-- **The scanner reads the lexeme that the next character cannot extend.**  So what it reads is a
matter of the lexemes alone, and the order in which it tries the kinds of tokens makes no
difference. -/
theorem scan_eq_token_iff (cs lexeme rest : List Char) (t : Token) :
    scan cs = .token t lexeme rest
      ↔ cs = lexeme ++ rest ∧ Lexeme t lexeme ∧ Munched lexeme rest := by
  constructor
  · intro hscan
    obtain ⟨hlexeme, hhalts⟩ := lexeme_of_scan hscan
    exact ⟨(scan_token_eq_append hscan).2.symm, hlexeme, (hlexeme.munched_iff rest).2 hhalts⟩
  · rintro ⟨rfl, hlexeme, hmunched⟩
    exact scan_of_lexeme hlexeme ((hlexeme.munched_iff rest).1 hmunched)

/-! ### Where no token can be read -/

theorem scan_cons_ne_finished (c : Char) (cs : List Char) : scan (c :: cs) ≠ .finished := by
  simp only [scan, scanText, scanName]
  repeat' split
  all_goals simp

/-- The scanner is stuck at an open text literal, or at a character that is stuck before
any text. -/
theorem scan_stuck_cases {c : Char} {cs consumed rest : List Char} {why : LexicalCause}
    (h : scan (c :: cs) = .stuck why consumed rest) :
    (c = '"' ∧ Unclosed cs)
      ∨ (c ≠ '"' ∧ ∀ ds, scan (c :: ds) = .stuck (.unreadable c) [] (c :: ds)) := by
  by_cases hquote : c = '"'
  · subst hquote
    refine .inl ⟨rfl, (textBody?_eq_none_iff cs).1 ?_⟩
    by_contra hsome
    obtain ⟨b, hb⟩ := Option.ne_none_iff_exists'.1 hsome
    simp [scan, scanText, hb] at h
  · -- the first character alone decides on the branch
    refine .inr ⟨hquote, fun ds => ?_⟩
    rw [scan, if_neg hquote] at h ⊢
    split at h
    · simp at h
    next hdigit =>
    split at h
    · simp [scanName] at h
    next hstart =>
    split at h
    · simp at h
    split at h
    · simp at h
    next hoperator =>
    rw [if_neg hdigit, if_neg hstart, if_neg hoperator]

theorem scan_unreadable {c : Char} (h : ∀ t lexeme, ¬ Lexeme t (c :: lexeme)) (cs : List Char) :
    scan (c :: cs) = .stuck (.unreadable c) [] (c :: cs) := by
  cases hscan : scan (c :: cs) with
  | finished => exact absurd hscan (scan_cons_ne_finished c cs)
  | token t lexeme rest =>
    obtain ⟨hne, happend⟩ := scan_token_eq_append hscan
    obtain ⟨d, ds, rfl⟩ := List.exists_cons_of_ne_nil hne
    obtain ⟨rfl, -⟩ := List.cons.inj happend
    exact absurd (lexeme_of_scan hscan).1 (h t ds)
  | stuck why consumed rest =>
    rcases scan_stuck_cases hscan with ⟨rfl, -⟩ | ⟨-, hstuck⟩
    · exact absurd (.text .close) (h (.text (String.ofList [])) ['"'])
    · rw [← hscan, hstuck]

theorem scan_unclosed {cs : List Char} (h : Unclosed cs) :
    scan ('"' :: cs) = .stuck .unterminated ('"' :: cs) [] := by
  simp [scan, scanText, (textBody?_eq_none_iff cs).2 h]

/-! ### Splits -/

/-- A lexeme with its token and the gap before it. -/
structure Piece where
  /-- The characters before the lexeme. -/
  gap : List Char
  /-- The characters of the token. -/
  lexeme : List Char
  /-- The token. -/
  token : Token
  deriving DecidableEq, Repr, Inhabited

/-- The characters of a piece. -/
def Piece.chars (q : Piece) : List Char := q.gap ++ q.lexeme

/-- The first text is made of the pieces and of what is left after them.  Each lexeme is
as long as possible. -/
inductive Splits : List Char → List Piece → List Char → Prop where
  | stop (left : List Char) : Splits left [] left
  | piece {gap lexeme rest left : List Char} {t : Token} {pieces : List Piece} :
      Gap gap → Lexeme t lexeme → Munched lexeme rest → Splits rest pieces left →
      Splits (gap ++ (lexeme ++ rest)) (⟨gap, lexeme, t⟩ :: pieces) left

/-- What can be left after the last piece: a gap, a character that no token starts with, or
a text literal without an end.  With the trouble go the characters up to it. -/
inductive Ending : List Char → Option LexicalCause → List Char → Prop where
  | finished {gap : List Char} : LastGap gap → Ending gap none gap
  | unreadable {gap cs : List Char} {c : Char} :
      Gap gap → isGapStart c = false → (∀ t lexeme, ¬ Lexeme t (c :: lexeme)) →
      Ending (gap ++ c :: cs) (some (.unreadable c)) gap
  | unterminated {gap cs : List Char} :
      Gap gap → Unclosed cs →
      Ending (gap ++ '"' :: cs) (some .unterminated) (gap ++ '"' :: cs)

/-- The tokens of pieces, each with the place at the end of its lexeme. -/
def locate : Place → List Piece → List Located
  | _, [] => []
  | p, q :: pieces => ⟨q.token, p.advance q.chars⟩ :: locate (p.advance q.chars) pieces

/-- The token of a piece is found among the located ones. -/
theorem exists_piece_of_mem_locate {p : Place} {pieces : List Piece} {t : Located}
    (h : t ∈ locate p pieces) : ∃ q ∈ pieces, q.token = t.token := by
  induction pieces generalizing p with
  | nil => simp [locate] at h
  | cons q pieces ih =>
    rcases List.mem_cons.1 h with rfl | h
    · exact ⟨q, by simp, rfl⟩
    · obtain ⟨q', hq', htoken⟩ := ih h
      exact ⟨q', List.mem_cons_of_mem _ hq', htoken⟩

theorem Splits.lexeme_of_mem {cs left : List Char} {pieces : List Piece}
    (h : Splits cs pieces left) : ∀ q ∈ pieces, Lexeme q.token q.lexeme := by
  induction h with
  | stop => simp
  | piece _ hlexeme _ _ ih => simpa using ⟨hlexeme, ih⟩

namespace Input

/-- A gap at the start of an input changes nothing but the place. -/
theorem lex_gap_append {gap : List Char} (h : Gap gap) (cs : List Char) (p : Place) :
    lex ⟨gap ++ cs, p⟩ = lex ⟨cs, p.advance gap⟩ := by
  have hskip : skipGap ⟨gap ++ cs, p⟩ = skipGap ⟨cs, p.advance gap⟩ := by
    simp [skipGap, consume, splitGap_append_of_gap h, Place.advance_append]
  rw [lex_eq, lex_eq, hskip]

theorem lex_of_lastGap {gap : List Char} (h : LastGap gap) (p : Place) :
    lex ⟨gap, p⟩ = ⟨[], ⟨[], p.advance gap⟩, none⟩ := by
  rw [lex_eq]
  simp [skipGap, consume, splitGap_of_lastGap h, scan, lexAfter]

theorem lex_of_stuck {c : Char} {cs consumed rest : List Char} {why : LexicalCause}
    (hc : isGapStart c = false) (h : scan (c :: cs) = .stuck why consumed rest) (p : Place) :
    lex ⟨c :: cs, p⟩ = ⟨[], ⟨rest, p.advance consumed⟩, some why⟩ := by
  have hskip : skipGap ⟨c :: cs, p⟩ = ⟨c :: cs, p⟩ := by
    simp [skipGap, consume, splitGap_of_halts (halts_cons cs hc)]
  rw [lex_eq, hskip, h]
  rfl

theorem lex_of_ending {left consumed : List Char} {trouble : Option LexicalCause}
    (h : Ending left trouble consumed) (p : Place) :
    ∃ rest, lex ⟨left, p⟩ = ⟨[], ⟨rest, p.advance consumed⟩, trouble⟩ := by
  cases h with
  | finished hgap => exact ⟨_, lex_of_lastGap hgap p⟩
  | unreadable hgap hc hnone =>
    rw [lex_gap_append hgap, lex_of_stuck hc (scan_unreadable hnone _)]
    exact ⟨_, rfl⟩
  | unterminated hgap hunclosed =>
    rw [lex_gap_append hgap, lex_of_stuck (by decide) (scan_unclosed hunclosed),
      Place.advance_append]
    exact ⟨_, rfl⟩

end Input

/-- **A split of a text tells what is read from it.**  The tokens are those of the pieces, each
with the place after its lexeme, and reading stops where the split does, with the trouble that it
ends in. -/
theorem Splits.lex {cs left consumed : List Char} {pieces : List Piece}
    {trouble : Option LexicalCause} (h : Splits cs pieces left)
    (hending : Ending left trouble consumed) (p : Place) :
    ∃ rest, Input.lex ⟨cs, p⟩
      = ⟨locate p pieces, ⟨rest, p.advance (pieces.flatMap Piece.chars ++ consumed)⟩, trouble⟩ := by
  induction h generalizing p with
  | stop left => simpa [locate] using Input.lex_of_ending hending p
  | @piece gap lexeme rest left t pieces hgap hlexeme hmunched _ ih =>
    have hscan := (scan_eq_token_iff _ lexeme rest t).2 ⟨rfl, hlexeme, hmunched⟩
    obtain ⟨rest', hrest⟩ := ih hending (p.advance (gap ++ lexeme))
    refine ⟨rest', ?_⟩
    rw [Input.lex_gap_append hgap, Input.lex_of_scan hscan, Input.lexAfter, Input.consume,
      ← Place.advance_append, hrest]
    simp [locate, Piece.chars, Place.advance_append]

/-- **Every text splits into pieces, up to its end or to a trouble.**  The induction is on the
length, as each piece has a lexeme that is not empty. -/
theorem exists_splits (cs : List Char) :
    ∃ pieces left trouble consumed, Splits cs pieces left ∧ Ending left trouble consumed := by
  induction hlength : cs.length using Nat.strongRecOn generalizing cs with
  | ind length ih =>
    rcases exists_gap cs with hlast | ⟨gap, cs, rfl, hgap, hne, hhalts⟩
    · exact ⟨[], cs, none, cs, .stop cs, .finished hlast⟩
    obtain ⟨c, cs, rfl⟩ := List.exists_cons_of_ne_nil hne
    -- behind the gap there is a lexeme, an open literal, or a character that starts none
    cases hscan : scan (c :: cs) with
    | finished => exact absurd hscan (scan_cons_ne_finished c cs)
    | token t lexeme rest =>
      have hshorter := length_lt_of_scan hscan
      obtain ⟨happend, hlexeme, hmunched⟩ := (scan_eq_token_iff _ _ _ _).1 hscan
      obtain ⟨pieces, left, trouble, consumed, hsplits, hending⟩ :=
        ih rest.length (by rw [← hlength, List.length_append]; omega) rest rfl
      rw [happend]
      exact ⟨_, left, trouble, consumed, .piece hgap hlexeme hmunched hsplits, hending⟩
    | stuck why consumed rest =>
      rcases scan_stuck_cases hscan with ⟨rfl, hunclosed⟩ | ⟨-, hstuck⟩
      · exact ⟨[], _, _, _, .stop _, .unterminated hgap hunclosed⟩
      · refine ⟨[], _, _, _, .stop _, .unreadable hgap (hhalts c rfl) fun t lexeme hlexeme => ?_⟩
        have hread := scan_of_lexeme hlexeme (halts_nil _)
        rw [List.append_nil, hstuck] at hread
        simp at hread

/-- Every token of a text has a lexeme. -/
theorem exists_lexeme_of_mem_lex {source : String} {t : Located}
    (h : t ∈ (lex source).tokens) : ∃ lexeme, Lexeme t.token lexeme := by
  obtain ⟨pieces, left, trouble, consumed, hsplits, hending⟩ := exists_splits source.toList
  obtain ⟨rest, hlex⟩ := hsplits.lex hending .start
  have htokens : (lex source).tokens = locate .start pieces := congrArg Lexed.tokens hlex
  rw [htokens] at h
  obtain ⟨q, hq, htoken⟩ := exists_piece_of_mem_locate h
  exact ⟨q.lexeme, htoken ▸ hsplits.lexeme_of_mem q hq⟩

/-! ### One token after the other -/

namespace Lexer

/-- What a lexer yields when it is asked for a token as long as there is one: the tokens,
each with the place reached when it was consumed, and the fault that ended it, if any. -/
inductive Yields : Lexer → List Located → Option Fault → Prop where
  | finished {l l' : Lexer} : l.atEnd = (.ok true, l') → Yields l [] none
  | failed {l l' : Lexer} {fault : Fault} : l.atEnd = (.error fault, l') → Yields l [] (some fault)
  | token {l l' l'' : Lexer} {t : Token} {tokens : List Located} {fault : Option Fault} :
      l.atEnd = (.ok false, l') → l'.next = (.ok (some t), l'') → Yields l'' tokens fault →
      Yields l (⟨t, l''.input.place⟩ :: tokens) fault

theorem Yields.unique {l : Lexer} {tokens tokens' : List Located} {fault fault' : Option Fault}
    (h : l.Yields tokens fault) (h' : l.Yields tokens' fault') :
    tokens = tokens' ∧ fault = fault' := by
  induction h generalizing tokens' fault' with
  | finished hend => cases h' <;> simp_all
  | failed hend => cases h' <;> simp_all
  | token hend hnext _ ih =>
    cases h' with
    | finished hend' => simp_all
    | failed hend' => simp_all
    | token hend' hnext' h' =>
      obtain ⟨-, rfl⟩ := Prod.mk.inj (hend.symm.trans hend')
      obtain ⟨htoken, rfl⟩ := Prod.mk.inj (hnext.symm.trans hnext')
      obtain ⟨rfl, rfl⟩ := ih h'
      simp_all

/-- A lexer yields what is read all at once. -/
theorem yields_lex (i : Input) : (Lexer.mk i none).Yields i.lex.tokens i.lex.fault? := by
  induction hlength : i.rest.length using Nat.strongRecOn generalizing i with
  | ind length ih =>
    -- each answer of the lexer is one step of reading all at once
    have hlex := i.lex_eq
    cases hscan : scan i.skipGap.rest with
    | finished =>
      rw [hlex, hscan]
      have hend : (Lexer.mk i none).atEnd = (.ok true, ⟨i.skipGap, none⟩) := by
        simp [atEnd, peek, readNext, hscan, accept]
      exact .finished hend
    | stuck why consumed rest =>
      rw [hlex, hscan]
      have hend : (Lexer.mk i none).atEnd
          = (.error (.atPlace (.lexical why) (i.skipGap.consume consumed rest).place),
            ⟨i.skipGap.consume consumed rest, none⟩) := by
        simp [atEnd, peek, readNext, hscan, accept, consume]
      exact .failed hend
    | token t lexeme rest =>
      have hshorter := length_lt_of_scan hscan
      have hgap := i.length_rest_skipGap_le
      rw [hlex, hscan]
      have hend : (Lexer.mk i none).atEnd
          = (.ok false, ⟨i.skipGap.consume lexeme rest, some t⟩) := by
        simp [atEnd, peek, readNext, hscan, accept, consume]
      exact .token hend rfl (ih rest.length (by omega) _ rfl)

end Lexer

/-- **The lexer finds the split of a text.**  Asked for one token after the other, it ends
on every text.  It yields the tokens of pieces that the text splits into, each with the
place at the end of its lexeme; a fault ends it if the split ends in a trouble, at the place
of that trouble. -/
theorem yields_iff_splits (source : String) :
    (∃ tokens fault, (Lexer.ofString source).Yields tokens fault) ∧
    ∀ tokens fault, (Lexer.ofString source).Yields tokens fault ↔
      ∃ pieces left trouble consumed,
        Splits source.toList pieces left ∧ Ending left trouble consumed ∧
        tokens = locate .start pieces ∧
        fault = trouble.map fun why => .atPlace (.lexical why)
          (Place.start.advance (pieces.flatMap Piece.chars ++ consumed)) := by
  have hyields := Lexer.yields_lex (.ofString source)
  have hread : ∀ {pieces left trouble consumed}, Splits source.toList pieces left →
      Ending left trouble consumed →
      (Lexer.ofString source).Yields (locate .start pieces)
        (trouble.map fun why => .atPlace (.lexical why)
          (Place.start.advance (pieces.flatMap Piece.chars ++ consumed))) := by
    intro pieces left trouble consumed hsplits hending
    obtain ⟨rest, hlex⟩ := hsplits.lex hending .start
    rwa [Input.ofString, hlex] at hyields
  refine ⟨⟨_, _, hyields⟩, fun tokens fault => ⟨fun h => ?_, ?_⟩⟩
  · obtain ⟨pieces, left, trouble, consumed, hsplits, hending⟩ := exists_splits source.toList
    obtain ⟨htokens, hfault⟩ := h.unique (hread hsplits hending)
    exact ⟨pieces, left, trouble, consumed, hsplits, hending, htokens, hfault⟩
  · rintro ⟨pieces, left, trouble, consumed, hsplits, hending, rfl, rfl⟩
    exact hread hsplits hending

end Lamlet
