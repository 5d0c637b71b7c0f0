import Lamlet.Continuation
import Lamlet.Proofs.Grammar.Limit
import Lamlet.Proofs.Token.Layout

/-!
# Brackets

Whether a text goes on is found by a scan of its characters, which knows nothing of tokens
beyond text literals and comments.  On texts that lex, what it counts are the brackets among
the tokens; and a program has as many brackets that open as brackets that close, so the scan
never asks for more after a program.

## Main definitions

* `Token.opensBracket`, `Token.closesBracket` — the brackets that count.
* `tokenBalance` — opening less closing brackets among tokens.

## Main results

* `bracketBalance_of_lexes` — **the scan of characters counts the brackets among the tokens.**
* `Grammar.Derives.balanced` — derivable words are balanced.
* `parse_eq_of_lexes` — texts with the same tokens are the same program.
* `continuation_of_parsesTo` — **a program is not held back, and stays the same program.**
* `continuation_iff_brackets` — **a text that lexes goes on just while more brackets open than
  close among its tokens.**
-/

namespace Lamlet

open Text

/-! ### Brackets among tokens -/

namespace Token

/-- An opening bracket, round or curly. -/
@[simp] def opensBracket : Token → Bool
  | mark .leftParen | mark .leftBrace => true
  | _ => false

/-- A closing bracket, round or curly. -/
@[simp] def closesBracket : Token → Bool
  | mark .rightParen | mark .rightBrace => true
  | _ => false

end Token

/-- Opening less closing brackets among tokens. -/
def tokenBalance (ts : List Token) : Int :=
  ts.countP Token.opensBracket - ts.countP Token.closesBracket

/-- What a token adds to the balance. -/
@[simp] def Token.bracketWeight (t : Token) : Int :=
  (if t.opensBracket then 1 else 0) - (if t.closesBracket then 1 else 0)

@[simp] theorem tokenBalance_nil : tokenBalance [] = 0 := rfl

@[simp] theorem tokenBalance_append (ts us : List Token) :
    tokenBalance (ts ++ us) = tokenBalance ts + tokenBalance us := by
  simp only [tokenBalance, List.countP_append]
  omega

@[simp] theorem tokenBalance_cons (t : Token) (ts : List Token) :
    tokenBalance (t :: ts) = t.bracketWeight + tokenBalance ts := by
  simp only [tokenBalance, Token.bracketWeight, List.countP_cons]
  push_cast
  omega

/-! ### The scan of a text that lexes -/

/-- The characters that neither count as brackets nor open a text literal or a comment. -/
def isInert (c : Char) : Bool := c ∉ ['"', '#', '(', '\x7b', ')', '\x7d']

theorem bracketBalance_inert {cs : List Char} (h : ∀ c ∈ cs, isInert c = true) (ds : List Char) :
    bracketBalance .code (cs ++ ds) = bracketBalance .code ds := by
  induction cs with
  | nil => rfl
  | cons c cs ih =>
    obtain ⟨hc, hcs⟩ := List.forall_mem_cons.1 h
    simp only [isInert, decide_eq_true_eq, List.mem_cons, List.not_mem_nil, or_false,
      not_or] at hc
    simp [bracketBalance, BracketScan.weight, BracketScan.next, hc, ih hcs]

theorem bracketBalance_comment {line : List Char} (h : '\n' ∉ line) (cs : List Char) :
    bracketBalance .comment (line ++ '\n' :: cs) = bracketBalance .code cs := by
  induction line with
  | nil => simp [bracketBalance, BracketScan.weight, BracketScan.next]
  | cons c line ih =>
    obtain ⟨hc, hline⟩ := List.ne_and_not_mem_of_not_mem_cons h
    simp [bracketBalance, BracketScan.weight, BracketScan.next, Ne.symm hc, ih hline]

theorem bracketBalance_lastComment {line : List Char} (h : '\n' ∉ line) :
    bracketBalance .comment line = 0 := by
  induction line with
  | nil => rfl
  | cons c line ih =>
    obtain ⟨hc, hline⟩ := List.ne_and_not_mem_of_not_mem_cons h
    simp [bracketBalance, BracketScan.weight, BracketScan.next, Ne.symm hc, ih hline]

/-- Gaps do not count. -/
theorem bracketBalance_gap {gap : List Char} (h : Gap gap) (cs : List Char) :
    bracketBalance .code (gap ++ cs) = bracketBalance .code cs := by
  induction h with
  | nil => rfl
  | @blank c gap hc _ ih =>
    have hinert : isInert c = true := by
      simp only [isGapChar, Bool.or_eq_true, decide_eq_true_eq] at hc
      rcases hc with (rfl | rfl) | rfl <;> decide
    have hsingle : ∀ d ∈ [c], isInert d = true := by simpa using hinert
    have := bracketBalance_inert hsingle (gap ++ cs)
    rw [← ih]
    exact this
  | @comment line gap hline _ ih =>
    -- a comment hides the brackets in it
    have hcomment := bracketBalance_comment hline (gap ++ cs)
    simp [bracketBalance, BracketScan.weight, BracketScan.next, hcomment, ih]

theorem bracketBalance_lastGap {gap : List Char} (h : LastGap gap) :
    bracketBalance .code gap = 0 := by
  cases h with
  | gap h =>
    have := bracketBalance_gap h []
    simpa [bracketBalance] using this
  | comment hgap hline =>
    rw [bracketBalance_gap hgap]
    simp [bracketBalance, BracketScan.weight, BracketScan.next, bracketBalance_lastComment hline]

/-- Text literals do not count. -/
theorem bracketBalance_quoted {content body : List Char} (h : Quoted content body)
    (cs : List Char) : bracketBalance .literal (body ++ cs) = bracketBalance .code cs := by
  induction h with
  | close => simp [bracketBalance, BracketScan.weight, BracketScan.next]
  | plain hquote hback _ ih =>
    simp [bracketBalance, BracketScan.weight, BracketScan.next, hquote, hback, ih]
  | escaped _ ih => simp [bracketBalance, BracketScan.weight, BracketScan.next, ih]

/-- A class of characters that leaves those of the scan out. -/
theorem isInert_of_class {p : Char → Bool}
    (hp : ['"', '#', '(', '\x7b', ')', '\x7d'].all (fun c => !p c) = true) {c : Char}
    (h : p c = true) : isInert c = true := by
  refine decide_eq_true fun hmem => ?_
  have hc := List.all_eq_true.1 hp c hmem
  simp [h] at hc

/-- A lexeme counts as its token. -/
theorem bracketBalance_lexeme {t : Token} {lexeme : List Char} (h : Lexeme t lexeme)
    (cs : List Char) :
    bracketBalance .code (lexeme ++ cs) = t.bracketWeight + bracketBalance .code cs := by
  -- apart from marks and text literals, no character of a lexeme counts
  have hinert {lexeme : List Char} (h : ∀ c ∈ lexeme, isInert c = true) :
      bracketBalance .code (lexeme ++ cs) = 0 + bracketBalance .code cs := by
    rw [bracketBalance_inert h, zero_add]
  cases h with
  | text hquoted =>
    have hliteral := bracketBalance_quoted hquoted cs
    simp [bracketBalance, BracketScan.weight, BracketScan.next, hliteral]
  | number hplain =>
    exact hinert fun c hc => isInert_of_class (by decide) (hplain.isNumeralChar c hc)
  | keyword k =>
    refine hinert (List.all_eq_true.1 ?_)
    cases k <;> decide
  | name hstart hchars _ =>
    refine hinert (List.forall_mem_cons.2 ⟨?_, fun d hd => ?_⟩)
    · exact isInert_of_class (by decide) hstart
    · exact isInert_of_class (by decide) (hchars d hd)
  | mark m => cases m <;> rfl
  | operator _ hchars => exact hinert fun c hc => isInert_of_class (by decide) (hchars c hc)

/-- **The scan of characters counts the brackets among the tokens.**  The scan knows nothing of
tokens, but it skips comments and literals as the lexer does, and in all other tokens only the
marks have brackets. -/
theorem bracketBalance_of_lexes {cs : List Char} {ts : List Token} (h : Lexes cs ts) :
    bracketBalance .code cs = tokenBalance ts := by
  refine Lexes.induction (motive := fun cs ts => bracketBalance .code cs = tokenBalance ts)
    ?_ ?_ h
  · exact fun gap hgap => bracketBalance_lastGap hgap
  · intro gap lexeme rest t ts hgap hlexeme _ _ ih
    rw [bracketBalance_gap hgap, bracketBalance_lexeme hlexeme, ih, tokenBalance_cons]

/-! ### Programs are balanced -/

namespace Grammar

/-- The words of a nonterminal have as many opening as closing brackets.  The separators of
rows are commas and semicolons. -/
def Nonterminal.Balanced : Nonterminal → List Token → Prop
  | .row s, w => s = .comma ∨ s = .semicolon → tokenBalance w = 0
  | .items s, w => s = .comma ∨ s = .semicolon → tokenBalance w = 0
  | _, w => tokenBalance w = 0

theorem Derives.balanced {n : Nonterminal} {w : List Token} (h : Derives n w) : n.Balanced w := by
  induction h with
  | program _ ih => exact ih (.inr rfl)
  | closedProgram _ ih => simp [Nonterminal.Balanced, ih (.inr rfl)]
  | called _ _ ihw ihargs =>
    simp only [Nonterminal.Balanced] at ihw
    simp [Nonterminal.Balanced, ihw, ihargs (.inl rfl)]
  | block _ ih => simp [Nonterminal.Balanced, ih (.inr rfl)]
  | emptyRow => exact fun _ => rfl
  | row _ ih => exact ih
  | item _ ih => exact fun _ => ih
  | @moreItems s w v _ _ ihw ihv =>
    intro hs
    have hw : tokenBalance w = 0 := ihw
    have hv : tokenBalance v = 0 := ihv hs
    -- whatever the separator is, it is no bracket
    rcases hs with rfl | rfl <;> simp [hw, hv]
  | _ => simp_all [Nonterminal.Balanced]

end Grammar

/-! ### Texts that are complete -/

/-- A program lexes, and its tokens are derivable. -/
theorem ParsesTo.lexes {source : String} {program : List Term}
    (h : ParsesTo source (.ok program)) :
    Lexes source.toList (tokensOf source) ∧ Grammar.Derives .program (tokensOf source) := by
  obtain ⟨limit, hlimit⟩ := h.eventually
  obtain ⟨htrouble, hprogram⟩ := Lexed.parse_eq_ok_iff.1 (hlimit limit (Nat.le_refl limit))
  exact ⟨lexes_tokensOf htrouble, Grammar.derives_of_program hprogram⟩

/-- Texts with the same tokens are the same program. -/
theorem parse_eq_of_lexes {source text : String} {program : List Term}
    (h : ParsesTo source (.ok program)) (htext : Lexes text.toList (tokensOf source))
    (frames : Nat) : parse frames text = parse frames source := by
  have htokens : (lex text).tokens.map (·.token) = (lex source).tokens.map (·.token) :=
    htext.tokensOf_eq
  rcases h.always frames with hread | hdeep
  · obtain ⟨-, hprogram⟩ := Lexed.parse_eq_ok_iff.1 hread
    rw [hread]
    exact Lexed.parse_eq_ok_iff.2 ⟨htext.lex.2, by rw [htokens, hprogram]⟩
  · have hprogram := Lexed.parse_eq_tooDeep_iff.1 hdeep
    rw [hdeep]
    exact Lexed.parse_eq_tooDeep_iff.2 (by rw [htokens, hprogram])

/-- A text with the tokens of a program is that program. -/
theorem ParsesTo.of_lexes {source text : String} {program : List Term}
    (h : ParsesTo source (.ok program)) (htext : Lexes text.toList (tokensOf source)) :
    ParsesTo text (.ok program) := by
  have hsame := parse_eq_of_lexes h htext
  obtain ⟨limit, hlimit⟩ := h.eventually
  refine ⟨⟨limit, fun frames hframes => ?_⟩, fun frames => ?_⟩
  · rw [hsame, hlimit frames hframes]
  · rw [hsame]
    exact h.always frames

/-- A text with the tokens of a program needs no continuation. -/
theorem continuation_of_lexes {source text : String} {program : List Term}
    (h : ParsesTo source (.ok program)) (htext : Lexes text.toList (tokensOf source)) :
    (continuation text).2 = false := by
  have hbalance : bracketBalance .code (trimEnd text.toList) = 0 := by
    rw [bracketBalance_of_lexes htext.trimEnd]
    exact h.lexes.2.balanced
  simp [continuation, hbalance]

/-- **A program is not held back, and stays the same program** when the blanks at its end are
cut off.  So a text that is held back is no program. -/
theorem continuation_of_parsesTo (source : String) :
    (∀ program, ParsesTo source (.ok program) →
      ∃ text, continuation source = (text, false) ∧ ParsesTo text (.ok program) ∧
        ∀ frames, parse frames text = parse frames source) ∧
    ((continuation source).2 = true →
      ∀ frames program, parse frames source ≠ .ok program) := by
  have hcomplete {program : List Term} (h : ParsesTo source (.ok program)) :
      (continuation source).2 = false :=
    continuation_of_lexes h h.lexes.1
  refine ⟨fun program h => ?_, fun hcontinues frames program hparse => ?_⟩
  · -- what is cut off belongs to the last gap
    have htrimmed : Lexes (continuation source).1.toList (tokensOf source) := by
      rw [continuation, String.toList_ofList]
      exact h.lexes.1.trimEnd
    refine ⟨(continuation source).1, ?_, h.of_lexes htrimmed, parse_eq_of_lexes h htrimmed⟩
    rw [← hcomplete h]
  · rw [hcomplete (.of_parse hparse)] at hcontinues
    cases hcontinues

/-- A program with brackets in a literal and in a comment, and with an em space at the end of
the comment; and a text that lacks a bracket. -/
theorem continuation_of_parsesTo_bracketSample :
    ParsesTo "f(\")(\\\"\") # ((\u2003\n" (.ok [.call (.var "f") [.text ")(\""]]) ∧
    (∃ text, continuation "f(\")(\\\"\") # ((\u2003\n" = (text, false) ∧
      ParsesTo text (.ok [.call (.var "f") [.text ")(\""]]) ∧
      ∀ frames, parse frames text = parse frames "f(\")(\\\"\") # ((\u2003\n") ∧
    (continuation "f(\")\" # )").2 = true ∧
    ∀ frames program, parse frames "f(\")\" # )" ≠ .ok program := by
  have htokens : (lex "f(\")(\\\"\") # ((\u2003\n").tokens.map (·.token)
      = [.name "f", .mark .leftParen, .text ")(\"", .mark .rightParen] := by
    decide +kernel
  have htrouble : (lex "f(\")(\\\"\") # ((\u2003\n").trouble = none := by
    decide +kernel
  have hparse : ParsesTo "f(\")(\\\"\") # ((\u2003\n" (.ok [.call (.var "f") [.text ")(\""]]) :=
    .of_tokens htokens htrouble rfl
  have hheld : (continuation "f(\")\" # )").2 = true := by decide +kernel
  exact ⟨hparse, (continuation_of_parsesTo _).1 _ hparse, hheld,
    (continuation_of_parsesTo _).2 hheld⟩

/-! ### Texts that lex -/

/-- A text that does not end in a blank is left when the blanks after it are cut off. -/
theorem trimEnd_append {cs blanks : List Char} (hblanks : ∀ c ∈ blanks, isBlank c = true)
    (hlast : ∀ c, cs.getLast? = some c → isBlank c = false) : trimEnd (cs ++ blanks) = cs := by
  have hreverse : ∀ c ∈ blanks.reverse, isBlank c = true := by
    intro c hc
    exact hblanks c (List.mem_reverse.1 hc)
  -- behind the blanks the last character of the text stops the cutting
  have hsolid : cs.reverse.dropWhile isBlank = cs.reverse := by
    cases hcs : cs.reverse with
    | nil => rfl
    | cons c rest =>
      have hc : isBlank c = false := by
        apply hlast
        rw [← List.head?_reverse, hcs, List.head?_cons]
      exact List.dropWhile_cons_of_neg (by simp [hc])
  rw [trimEnd, dropEnd, List.reverse_append, List.dropWhile_append_of_pos hreverse, hsolid,
    List.reverse_reverse]

/-- The brackets that count, one by one. -/
theorem tokenBalance_eq_count (ts : List Token) :
    tokenBalance ts = (ts.count (.mark .leftParen) + ts.count (.mark .leftBrace) : ℤ)
      - (ts.count (.mark .rightParen) + ts.count (.mark .rightBrace)) := by
  induction ts with
  | nil => rfl
  | cons t ts ih =>
    rw [tokenBalance_cons, ih]
    simp only [List.count_cons]
    -- only the four brackets add to a count, each to its own
    cases t with
    | mark m =>
      cases m <;> simp <;> omega
    | _ => simp

/-- **A text that lexes goes on just while more brackets open than close among its tokens.**
The blanks at the end of the line are cut off first; what is left may end inside a comment. -/
theorem continuation_iff_brackets {line text : String} {blanks : List Char}
    (hline : line.toList = text.toList ++ blanks) (hblanks : ∀ c ∈ blanks, isBlank c = true)
    (hlast : ∀ c, text.toList.getLast? = some c → isBlank c = false)
    (hlex : (lex text).trouble = none) :
    (continuation line).1 = text ∧
    ((continuation line).2 = true ↔
      (tokensOf text).count (.mark .rightParen) + (tokensOf text).count (.mark .rightBrace)
        < (tokensOf text).count (.mark .leftParen) + (tokensOf text).count (.mark .leftBrace)) := by
  have htrim : trimEnd line.toList = text.toList := by
    rw [hline]
    exact trimEnd_append hblanks hlast
  -- without the blanks the text has the same tokens, whose brackets are those that count
  have hbalance : bracketBalance .code (trimEnd line.toList) = tokenBalance (tokensOf text) := by
    rw [htrim]
    exact bracketBalance_of_lexes (lexes_tokensOf hlex)
  constructor
  · rw [continuation, htrim, String.ofList_toList]
  · simp only [continuation, hbalance, tokenBalance_eq_count, decide_eq_true_eq]
    omega

/-- Quotation marks and comments that touch other tokens, with brackets in them. -/
def touchingSample : String := "f(\"(\\\")\"#)(\n\x7b1#("

/-- The sample goes on, whatever blanks come after it; a bracket that closes and one that opens
do not. -/
theorem continuation_iff_brackets_touching :
    (lex touchingSample).trouble = none ∧
    (continuation (touchingSample ++ " \u2003")).1 = touchingSample ∧
    (continuation (touchingSample ++ " \u2003")).2 = true ∧
    (lex ")(").trouble = none ∧ (continuation ")(").2 = false := by
  have hlex : (lex touchingSample).trouble = none := by decide +kernel
  have hline : (touchingSample ++ " \u2003").toList = touchingSample.toList ++ [' ', '\u2003'] := by
    decide +kernel
  have hblanks : [' ', '\u2003'].all isBlank = true := by decide +kernel
  have hend (text : String) (h : text.toList.getLast? = some '(') :
      ∀ c, text.toList.getLast? = some c → isBlank c = false := by
    intro c hc
    obtain rfl := Option.some.inj (h.symm.trans hc)
    decide +kernel
  have hopen := continuation_iff_brackets hline (List.all_eq_true.1 hblanks)
    (hend touchingSample (by decide +kernel)) hlex
  have hlex' : (lex ")(").trouble = none := by decide +kernel
  have hclosed := continuation_iff_brackets (List.append_nil _).symm (by simp)
    (hend ")(" (by decide +kernel)) hlex'
  refine ⟨hlex, hopen.1, hopen.2.2 (by decide +kernel), hlex', ?_⟩
  rw [Bool.eq_false_iff, ne_eq, hclosed.2]
  decide +kernel

end Lamlet
