import Lamlet.Proofs.Token.Layout

/-!
# A newline between two texts

No token goes over the end of a text that can be read whole, and a newline ends the comment
that may stand there.  So after a newline the lexer is where it starts with a fresh text, only
further down: it yields the tokens of the second text, each as many characters and lines later
as the first text and the newline take.

## Main definitions

* `Place.below`, `Located.below`, `Fault.below` — the same further down, after a text and a
  newline.

## Main results

* `Place.advance_below`, `Input.lex_below` — what is read does not depend on what stands
  before, except for its place.
* `Splits.lex_append_newline` — two texts are read one after the other.
* `yields_append_newline` — **a newline separates the tokens of two texts.**
-/

namespace Lamlet

open Text

/-! ### Further down in a text -/

/-- A place further down, when a text and a newline stand before. -/
def Place.below (text : String) (p : Place) : Place :=
  ⟨p.offset + (text.length + 1), p.line + (1 + text.toList.count '\n'), p.column⟩

/-- A token further down. -/
def Located.below (text : String) (t : Located) : Located := ⟨t.token, t.after.below text⟩

/-- A fault further down: its line is another, and nothing else. -/
def Fault.below (text : String) (f : Fault) : Fault :=
  { f with position := f.position.map fun p => ⟨p.line + (1 + text.toList.count '\n'), p.column⟩ }

section Below

variable (text : String)

theorem Place.advance_below (p : Place) (cs : List Char) :
    (p.below text).advance cs = (p.advance cs).below text := by
  induction cs generalizing p with
  | nil => rfl
  | cons c cs ih =>
    have hnext : (p.below text).next c = (p.next c).below text := by
      unfold next below
      split
      · simp only [Place.mk.injEq, and_true]
        omega
      · simp only [Place.mk.injEq, and_true]
        omega
    rw [advance_cons, advance_cons, hnext, ih]

theorem locate_below (p : Place) (pieces : List Piece) :
    locate (p.below text) pieces = (locate p pieces).map (·.below text) := by
  induction pieces generalizing p with
  | nil => rfl
  | cons q pieces ih =>
    simp only [locate, Place.advance_below, ih, List.map_cons, Located.below]

theorem Fault.atPlace_below (cause : Cause) (p : Place) :
    Fault.atPlace cause (p.below text) = (Fault.atPlace cause p).below text := by
  simp [atPlace, below, Place.below, Place.position]

/-- **What is read does not depend on what stands before,** except for its place. -/
theorem Input.lex_below (cs : List Char) (p : Place) :
    (lex ⟨cs, p.below text⟩).tokens = (lex ⟨cs, p⟩).tokens.map (·.below text) ∧
    (lex ⟨cs, p.below text⟩).fault? = (lex ⟨cs, p⟩).fault?.map (·.below text) := by
  obtain ⟨pieces, left, trouble, consumed, hsplits, hending⟩ := exists_splits cs
  obtain ⟨rest, hlex⟩ := hsplits.lex hending p
  obtain ⟨rest', hlex'⟩ := hsplits.lex hending (p.below text)
  rw [hlex, hlex']
  refine ⟨locate_below text p pieces, ?_⟩
  cases trouble with
  | none => rfl
  | some why =>
    simp only [Lexed.fault?, Option.map_some, Place.advance_below, Fault.atPlace_below]

/-- After a text and a newline a reader stands where it would start, further down. -/
theorem Place.start_advance_newline :
    start.advance (text.toList ++ ['\n']) = start.below text := by
  rw [start_advance, lastLine_concat, if_pos rfl]
  simp only [below, start, List.length_append, List.count_append, List.length_singleton,
    List.length_nil, String.length_toList, Place.mk.injEq, and_true]
  refine ⟨?_, ?_⟩
  · omega
  · rw [show List.count '\n' ['\n'] = 1 from rfl]
    omega

end Below

/-! ### The seam -/

/-- **Two texts with a newline between them are read one after the other,** if the first one
can be read to its end. -/
theorem Splits.lex_append_newline {cs left : List Char} {pieces : List Piece}
    (h : Splits cs pieces left) (hgap : LastGap left) (ds : List Char) (p : Place) :
    (Input.lex ⟨cs ++ '\n' :: ds, p⟩).tokens
      = locate p pieces ++ (Input.lex ⟨ds, p.advance (cs ++ ['\n'])⟩).tokens ∧
    (Input.lex ⟨cs ++ '\n' :: ds, p⟩).fault?
      = (Input.lex ⟨ds, p.advance (cs ++ ['\n'])⟩).fault? := by
  induction h generalizing p with
  | stop left =>
    -- the newline ends the last gap, also if that is a comment
    have hlex := Input.lex_gap_append hgap.append_newline ds p
    rw [List.append_assoc, List.singleton_append] at hlex
    rw [hlex]
    exact ⟨rfl, rfl⟩
  | @piece gap lexeme rest left t pieces hgap' hlexeme hmunched _ ih =>
    obtain ⟨htokens, hfault⟩ := ih hgap (p.advance (gap ++ lexeme))
    have hscan := (scan_eq_token_iff _ lexeme (rest ++ '\n' :: ds) t).2
      ⟨rfl, hlexeme, hmunched.append_newline ds⟩
    have hlex : Input.lex ⟨gap ++ (lexeme ++ rest) ++ '\n' :: ds, p⟩
        = Input.lexAfter ⟨lexeme ++ (rest ++ '\n' :: ds), p.advance gap⟩
          (.token t lexeme (rest ++ '\n' :: ds)) := by
      rw [List.append_assoc, List.append_assoc, Input.lex_gap_append hgap',
        Input.lex_of_scan hscan]
    have hplace : p.advance (gap ++ (lexeme ++ rest) ++ ['\n'])
        = (p.advance (gap ++ lexeme)).advance (rest ++ ['\n']) := by
      simp only [Place.advance_append]
    rw [hlex, hplace, ← hfault]
    simp only [Input.lexAfter, Input.consume]
    rw [← Place.advance_append, htokens]
    exact ⟨rfl, rfl⟩

/-- The tokens of two texts, read all at once. -/
theorem lex_append_newline {first : String} (h : (lex first).trouble = none) (second : String) :
    (lex (first ++ "\n" ++ second)).tokens
      = (lex first).tokens ++ (lex second).tokens.map (·.below first) ∧
    (lex (first ++ "\n" ++ second)).fault? = (lex second).fault?.map (·.below first) := by
  obtain ⟨pieces, left, hsplits, hgap, -⟩ := (lexes_iff _ _).1 (lexes_tokensOf h)
  obtain ⟨rest, hread⟩ := hsplits.lex (.finished hgap) .start
  have hfirst : (lex first).tokens = locate .start pieces := congrArg Lexed.tokens hread
  have hjoined : lex (first ++ "\n" ++ second)
      = Input.lex ⟨first.toList ++ '\n' :: second.toList, .start⟩ := by
    simp [lex, Input.ofString]
  -- the newline ends the gap behind the last piece, even if that is a comment
  obtain ⟨htokens, hfault⟩ := hsplits.lex_append_newline hgap second.toList .start
  obtain ⟨hbelow, hfaultBelow⟩ := Input.lex_below first second.toList .start
  rw [Place.start_advance_newline] at htokens hfault
  rw [hjoined, htokens, hfault, hfirst, hbelow, hfaultBelow]
  exact ⟨rfl, rfl⟩

/-- **A newline separates the tokens of two texts.**  If a text can be read to its end, then
with a newline and another text behind it yields its own tokens and then those of the other
text, further down and in the same columns; and it ends in a fault iff the other one does, for
the same cause, further down and in the same column. -/
theorem yields_append_newline {first second : String} {tokens tokens' : List Located}
    {fault : Option Fault} (hfirst : (Lexer.ofString first).Yields tokens none)
    (hsecond : (Lexer.ofString second).Yields tokens' fault) :
    (Lexer.ofString (first ++ "\n" ++ second)).Yields
      (tokens ++ tokens'.map (·.below first)) (fault.map (·.below first)) := by
  have hyields (source : String) :
      (Lexer.ofString source).Yields (lex source).tokens (lex source).fault? :=
    Lexer.yields_lex (.ofString source)
  obtain ⟨rfl, hwhole⟩ := hfirst.unique (hyields first)
  obtain ⟨rfl, rfl⟩ := hsecond.unique (hyields second)
  have hjoined := hyields (first ++ "\n" ++ second)
  obtain ⟨htokens, hfault⟩ :=
    lex_append_newline (Option.map_eq_none_iff.1 hwhole.symm) second
  rwa [htokens, hfault] at hjoined

/-- A text that ends in a comment, before one with a literal that is never closed. -/
theorem yields_append_newline_openLiteral :
    (Lexer.ofString "f(\"a\nb\") # c").Yields
      [⟨.name "f", ⟨1, 1, 1⟩⟩, ⟨.mark .leftParen, ⟨2, 1, 2⟩⟩, ⟨.text "a\nb", ⟨7, 2, 2⟩⟩,
        ⟨.mark .rightParen, ⟨8, 2, 3⟩⟩] none ∧
    (Lexer.ofString "x=1 +\n \"y").Yields
      [⟨.name "x=1", ⟨3, 1, 3⟩⟩, ⟨.operator "+", ⟨5, 1, 5⟩⟩]
      (some ⟨.lexical .unterminated, some ⟨2, 3⟩⟩) ∧
    (Lexer.ofString "f(\"a\nb\") # c\nx=1 +\n \"y").Yields
      [⟨.name "f", ⟨1, 1, 1⟩⟩, ⟨.mark .leftParen, ⟨2, 1, 2⟩⟩, ⟨.text "a\nb", ⟨7, 2, 2⟩⟩,
        ⟨.mark .rightParen, ⟨8, 2, 3⟩⟩, ⟨.name "x=1", ⟨16, 3, 3⟩⟩, ⟨.operator "+", ⟨18, 3, 5⟩⟩]
      (some ⟨.lexical .unterminated, some ⟨4, 3⟩⟩) := by
  have hfirst := Lexer.yields_lex (.ofString "f(\"a\nb\") # c")
  have hsecond := Lexer.yields_lex (.ofString "x=1 +\n \"y")
  rw [show (Input.ofString "f(\"a\nb\") # c").lex = ⟨[⟨.name "f", ⟨1, 1, 1⟩⟩,
      ⟨.mark .leftParen, ⟨2, 1, 2⟩⟩, ⟨.text "a\nb", ⟨7, 2, 2⟩⟩, ⟨.mark .rightParen, ⟨8, 2, 3⟩⟩],
      ⟨[], ⟨12, 2, 7⟩⟩, none⟩ by decide +kernel] at hfirst
  rw [show (Input.ofString "x=1 +\n \"y").lex = ⟨[⟨.name "x=1", ⟨3, 1, 3⟩⟩,
      ⟨.operator "+", ⟨5, 1, 5⟩⟩], ⟨[], ⟨9, 2, 3⟩⟩, some .unterminated⟩ by
    decide +kernel] at hsecond
  have hjoined := yields_append_newline hfirst hsecond
  rw [show "f(\"a\nb\") # c" ++ "\n" ++ "x=1 +\n \"y" = "f(\"a\nb\") # c\nx=1 +\n \"y" by
    decide +kernel] at hjoined
  refine ⟨hfirst, hsecond, ?_⟩
  convert hjoined using 1 <;> decide +kernel

end Lamlet
