import Lamlet.Proofs.Grammar.Greedy
import Lamlet.Proofs.Grammar.Lookahead
import Lamlet.Proofs.Grammar.Viable
import Lamlet.Proofs.Token.Layout

/-!
# The first impossible token

A text that the grammar rejects is rejected at the first token with which no program can
start, and the text after that token is not even read.  If every token could be part of a
program, the text is rejected at its end.

## Main definitions

* `Grammar.Parses` — tokens that are read as a program, depth limit aside.
* `RejectedAt`, `RejectedAtEnd` — what it means to be rejected at a token, or at the end.

## Main results

* `Splits.replace` — what is left after some pieces can be replaced.
* `parse_of_rejected` — a text whose tokens are rejected, with the place of the fault.
* `rejected_at_first_impossible` — **a text is rejected at the first impossible token.**
-/

namespace Lamlet

open Text

/-! ### Tokens that are read as a program -/

namespace Grammar

/-- Tokens that are read as a program, depth limit aside. -/
def Parses (ts : List Token) : Prop := ∃ frames es, program frames ts = .ok es

theorem parses_of_derives {ts : List Token} (h : Derives .program ts) : Parses ts := by
  obtain ⟨es, hes⟩ := unlimitedProgram_ok_iff.2 h
  exact ⟨8 * ts.length + 1, es, hes⟩

theorem not_parses_of_rejected {frames : Nat} {ts rest : List Token} {wanted : Wanted}
    (h : program frames ts = .error (.unwanted wanted rest)) : ¬ Parses ts := by
  rintro ⟨frames', es, hes⟩
  -- both limits were large enough, so they agree
  rcases program_below_unlimitedProgram frames ts with ⟨hsame, -⟩ | ⟨-, hdeep⟩
  · rcases program_below_unlimitedProgram frames' ts with ⟨hsame', -⟩ | ⟨-, hdeep⟩
    · rw [h] at hsame
      rw [hes, ← hsame] at hsame'
      cases hsame'
    · rw [hes] at hdeep
      cases hdeep
  · rw [h] at hdeep
    cases hdeep

end Grammar

/-! ### Texts in pieces -/

namespace Splits

variable {cs left : List Char} {pieces : List Piece}

theorem eq_append (h : Splits cs pieces left) : cs = pieces.flatMap Piece.chars ++ left := by
  induction h with
  | stop => rfl
  | piece _ _ _ _ ih =>
    rw [ih]
    simp [Piece.chars]

/-- A split can be taken apart between two pieces. -/
theorem of_append {front back : List Piece} (h : Splits cs (front ++ back) left) :
    ∃ mid, Splits cs front mid ∧ Splits mid back left := by
  induction front generalizing cs with
  | nil => exact ⟨cs, .stop cs, h⟩
  | cons q front ih =>
    cases h with
    | piece hgap hlexeme hmunched hrest =>
      obtain ⟨mid, hfront, hback⟩ := ih hrest
      exact ⟨mid, .piece hgap hlexeme hmunched hfront, hback⟩

theorem append {mid : List Char} {front back : List Piece} (h : Splits cs front mid)
    (h' : Splits mid back left) : Splits cs (front ++ back) left := by
  induction h with
  | stop => exact h'
  | piece hgap hlexeme hmunched _ ih => exact .piece hgap hlexeme hmunched (ih h')

/-- What is left after some pieces can be replaced, if the last lexeme does not go on. -/
theorem replace {front : List Piece} {q : Piece} (h : Splits cs (front ++ [q]) left)
    {left' : List Char} (hmunched' : Munched q.lexeme left') :
    Splits ((front ++ [q]).flatMap Piece.chars ++ left') (front ++ [q]) left' := by
  induction front generalizing cs with
  | nil =>
    cases h with
    | piece hgap hlexeme _ _ =>
      have := Splits.piece hgap hlexeme hmunched' (.stop left')
      simpa [Piece.chars] using this
  | cons q' front ih =>
    rw [List.cons_append] at h
    cases h with
    | @piece gap lexeme rest _ t _ hgap hlexeme hmunched hrest =>
      -- the lexeme is followed by the same character, since the next lexeme is not empty
      have hnext : Munched lexeme ((front ++ [q]).flatMap Piece.chars ++ left') := by
        rw [hrest.eq_append] at hmunched
        have hne : (front ++ [q]).flatMap Piece.chars ≠ [] := by
          have hlast := (hrest.lexeme_of_mem q (by simp)).ne_nil
          simp [Piece.chars, hlast]
        obtain ⟨c, chars, hchars⟩ := List.exists_cons_of_ne_nil hne
        rw [hchars] at hmunched ⊢
        exact hmunched
      have := Splits.piece hgap hlexeme hnext (ih hrest)
      simpa [Piece.chars] using this

end Splits

theorem length_locate (p : Place) (pieces : List Piece) :
    (locate p pieces).length = pieces.length := by
  rw [← List.length_map (·.token), map_token_locate, List.length_map]

/-- The pieces after some others are located from where these end. -/
theorem drop_locate (p : Place) (front back : List Piece) :
    (locate p (front ++ back)).drop front.length
      = locate (p.advance (front.flatMap Piece.chars)) back := by
  induction front generalizing p with
  | nil => rfl
  | cons q front ih =>
    rw [List.cons_append, locate, List.length_cons, List.drop_succ_cons, ih,
      List.flatMap_cons, Place.advance_append]

/-! ### The fault of a rejected text -/

/-- The fault of what is found where something else was wanted, at the place that has been
reached when the given text has been read. -/
def unwantedFault (wanted : Wanted) (found : Option Token) (text : List Char) : ParseFailure :=
  .fault (.atPlace (.syntactic wanted found) (Place.start.advance text))
    (Place.start.advance text)

/-- A text in pieces is rejected at the piece whose token is rejected, with the place at the
end of its lexeme. -/
theorem parse_of_rejected {frames : Nat} {source : String} {front back : List Piece} {q : Piece}
    {left consumed : List Char} {trouble : Option LexicalCause} {wanted : Wanted}
    (hsplits : Splits source.toList (front ++ q :: back) left)
    (hending : Ending left trouble consumed)
    (h : Grammar.program frames ((front ++ q :: back).map (·.token))
      = .error (.unwanted wanted (q.token :: back.map (·.token)))) :
    parse frames source
      = .error (unwantedFault wanted (some q.token) ((front ++ [q]).flatMap Piece.chars)) := by
  obtain ⟨rest, hlex⟩ := hsplits.lex hending .start
  change lex source = _ at hlex
  have htokens : (lex source).tokens = locate .start (front ++ q :: back) := by rw [hlex]
  -- the place is that of the first token that is left
  have hplace : (lex source).placeOf (q.token :: back.map (·.token))
      = Place.start.advance ((front ++ [q]).flatMap Piece.chars) := by
    have hlength : (lex source).tokens.length - (q.token :: back.map (·.token)).length
        = front.length := by
      rw [htokens, length_locate]
      simp
    rw [Lexed.placeOf, hlength, htokens, drop_locate]
    simp [locate, Place.advance_append]
  rw [parse, Lexed.parse, htokens, map_token_locate, h]
  simp only [Lexed.rejection, hplace]
  rfl

/-- A fault of the grammar comes from tokens that are rejected.  At their end it is a fault
of the grammar only if no trouble stopped them. -/
theorem exists_rejected_of_parse {frames : Nat} {source : String} {fault : Fault} {place : Place}
    (h : parse frames source = .error (.fault fault place))
    (hkind : fault.cause.kind = .syntactic) :
    ∃ wanted rest, Grammar.program frames (tokensOf source)
        = .error (.unwanted wanted rest) ∧
      (rest = [] → (lex source).trouble = none) := by
  -- what stopped the tokens is no fault of the grammar
  have hlexical (hfault : (lex source).fault? = some fault) : False := by
    obtain ⟨why, -, rfl⟩ := Option.map_eq_some_iff.1 hfault
    cases hkind
  rw [parse, Lexed.parse] at h
  unfold tokensOf
  cases hprogram : Grammar.program frames
      ((lex source).tokens.map (·.token)) with
  | error reject =>
    rw [hprogram] at h
    cases reject with
    | tooDeep => cases h
    | unwanted wanted rest =>
      refine ⟨wanted, rest, rfl, fun hrest => ?_⟩
      rcases (lex source).rejection_cases wanted rest with
        ⟨-, fault', hfault, hrejection⟩ | ⟨hnone, -⟩
      · obtain ⟨rfl, -⟩ := ParseFailure.fault.inj (hrejection.symm.trans (Except.error.inj h))
        exact (hlexical hfault).elim
      · exact Option.map_eq_none_iff.1 (hnone hrest)
  | ok es =>
    rw [hprogram] at h
    cases hfault : (lex source).fault? with
    | none => simp [hfault] at h
    | some fault' =>
      simp only [hfault] at h
      obtain ⟨rfl, -⟩ := ParseFailure.fault.inj (Except.error.inj h)
      exact (hlexical hfault).elim

/-! ### Where a text is rejected -/

/-- A text is rejected at the token of the last of some pieces. -/
structure RejectedAt (frames : Nat) (source : String) (fault : Fault) (place : Place)
    (front : List Piece) (q : Piece) (left : List Char) : Prop where
  splits : Splits source.toList (front ++ [q]) left
  /-- The fault names the token. -/
  cause : ∃ wanted, fault.cause = .syntactic wanted (some q.token)
  /-- The tokens before it can go on to a program. -/
  viable : ∃ more, Grammar.Parses (front.map (·.token) ++ more)
  /-- With it they cannot. -/
  impossible : ∀ more, ¬ Grammar.Parses (front.map (·.token) ++ q.token :: more)
  /-- The reader has come to the end of the token. -/
  place_eq : place = Place.start.advance ((front ++ [q]).flatMap Piece.chars)
  /-- The position is that of its last character. -/
  position : ∃ before c, (front ++ [q]).flatMap Piece.chars = before ++ [c] ∧
    q.lexeme.getLast? = some c ∧
    fault.position = some ⟨before.count '\n' + 1, (lastLine before).length + 1⟩
  /-- Nothing after the token has been read: another text there, which may be in no way
  readable, makes no difference. -/
  unread : ∀ left', Munched q.lexeme left' →
    parse frames (String.ofList ((front ++ [q]).flatMap Piece.chars ++ left'))
      = .error (.fault fault place)

/-- A text is rejected at its end. -/
structure RejectedAtEnd (source : String) (fault : Fault) (place : Place)
    (front : List Piece) (left : List Char) : Prop where
  splits : Splits source.toList front left
  gap : LastGap left
  /-- The fault names no token. -/
  cause : ∃ wanted, fault.cause = .syntactic wanted none
  /-- The tokens can go on to a program. -/
  viable : ∃ more, Grammar.Parses (front.map (·.token) ++ more)
  /-- They are not one yet. -/
  incomplete : ¬ Grammar.Parses (front.map (·.token))
  /-- The reader has come to the end. -/
  place_eq : place = Place.start.advance source.toList
  /-- So has the position. -/
  position : fault.position
    = some ⟨source.toList.count '\n' + 1, (lastLine source.toList).length⟩

/-- The position of the last character of a lexeme. -/
theorem exists_position (front : List Piece) {q : Piece} (h : Lexeme q.token q.lexeme) :
    ∃ before c, (front ++ [q]).flatMap Piece.chars = before ++ [c] ∧
      q.lexeme.getLast? = some c ∧
      (Place.start.advance ((front ++ [q]).flatMap Piece.chars)).position
        = ⟨before.count '\n' + 1, (lastLine before).length + 1⟩ := by
  obtain ⟨init, c, hlexeme, hc⟩ := h.exists_last
  -- a lexeme has no newline at its end, so it ends on the line of its last character
  have hnewline : c ≠ '\n' := by
    rintro rfl
    exact absurd hc (by decide)
  have hchars : (front ++ [q]).flatMap Piece.chars
      = (front.flatMap Piece.chars ++ (q.gap ++ init)) ++ [c] := by
    simp [Piece.chars, hlexeme]
  refine ⟨_, c, hchars, by simp [hlexeme], ?_⟩
  rw [hchars, Place.advance_append, Place.start_advance]
  simp [Place.next, hnewline, Place.position]

section

variable {frames : Nat} {source : String} {front back : List Piece} {q : Piece}
  {left consumed : List Char} {trouble : Option LexicalCause} {wanted : Wanted}

theorem exists_parses_of_rejected {rest : List Token}
    (h : Grammar.program frames (front.map (·.token) ++ rest)
      = .error (.unwanted wanted rest)) :
    ∃ more, Grammar.Parses (front.map (·.token) ++ more) := by
  obtain ⟨w, v, hderives, hsplit⟩ := Grammar.exists_derives_of_rejected h
  obtain rfl : front.map (·.token) = w := List.append_cancel_right hsplit
  exact ⟨v, Grammar.parses_of_derives hderives⟩

theorem rejectedAt_of_program (hsplits : Splits source.toList (front ++ q :: back) left)
    (h : Grammar.program frames
        (front.map (·.token) ++ q.token :: back.map (·.token))
      = .error (.unwanted wanted (q.token :: back.map (·.token)))) :
    RejectedAt frames source
      (.atPlace (.syntactic wanted (some q.token))
        (Place.start.advance ((front ++ [q]).flatMap Piece.chars)))
      (Place.start.advance ((front ++ [q]).flatMap Piece.chars)) front q
      (back.flatMap Piece.chars ++ left) := by
  have hq := hsplits.lexeme_of_mem q (by simp)
  rw [← List.singleton_append (x := q), ← List.append_assoc] at hsplits
  obtain ⟨mid, hfront, hback⟩ := hsplits.of_append
  rw [hback.eq_append] at hfront
  obtain ⟨before, c, hchars, hlast, hposition⟩ := exists_position front hq
  refine ⟨hfront, ⟨wanted, rfl⟩, exists_parses_of_rejected h, fun more => ?_, rfl,
    ⟨before, c, hchars, hlast, congrArg some hposition⟩, fun left' hmunched => ?_⟩
  · exact Grammar.not_parses_of_rejected (Grammar.program_rejects_alike h more)
  · -- the text after the token has pieces of its own
    obtain ⟨pieces', left'', trouble', consumed', hsplits', hending'⟩ := exists_splits left'
    have hall := (hfront.replace hmunched).append hsplits'
    rw [← String.toList_ofList (l := (front ++ [q]).flatMap Piece.chars ++ left'),
      List.append_assoc, List.singleton_append] at hall
    refine parse_of_rejected hall hending' ?_
    rw [List.map_append, List.map_cons]
    exact Grammar.program_rejects_alike h _

theorem rejectedAtEnd_of_program (hsplits : Splits source.toList front left)
    (hgap : LastGap left)
    (h : Grammar.program frames (front.map (·.token))
      = .error (.unwanted wanted [])) :
    RejectedAtEnd source
      (.atPlace (.syntactic wanted none) (Place.start.advance source.toList))
      (Place.start.advance source.toList) front left := by
  refine ⟨hsplits, hgap, ⟨wanted, rfl⟩, exists_parses_of_rejected (by rwa [List.append_nil]),
    Grammar.not_parses_of_rejected h, rfl, ?_⟩
  rw [Fault.atPlace, Place.start_advance]
  simp [Place.position]

end

/-- **A text is rejected at the first impossible token**, or at its end if no token is impossible.
The tokens before it can go on to a program and with it they cannot; the fault names the token and
the position of its last character, and nothing after it has been read.  At the end it names no
token, and the tokens are the start of a program but none yet. -/
theorem rejected_at_first_impossible {frames : Nat} {source : String} {fault : Fault}
    {place : Place} (h : parse frames source = .error (.fault fault place))
    (hkind : fault.cause.kind = .syntactic) :
    (∃ front q left, RejectedAt frames source fault place front q left) ∨
      ∃ front left, RejectedAtEnd source fault place front left := by
  obtain ⟨wanted, rest, hprogram, htrouble⟩ := exists_rejected_of_parse h hkind
  obtain ⟨pieces, left, trouble, consumed, hsplits, hending⟩ := exists_splits source.toList
  obtain ⟨rest', hlex⟩ := hsplits.lex hending .start
  change lex source = _ at hlex
  have htokens : tokensOf source = pieces.map (·.token) := by
    rw [tokensOf, hlex, map_token_locate]
  rw [htokens] at hprogram
  cases rest with
  | cons t rest =>
    -- the token that is rejected is that of a piece
    obtain ⟨w, v, -, hw⟩ := Grammar.exists_derives_of_rejected hprogram
    obtain ⟨front, pieces, rfl, rfl, hpieces⟩ := List.map_eq_append_iff.1 hw
    obtain ⟨q, back, rfl, rfl, rfl⟩ := List.map_eq_cons_iff.1 hpieces
    have hparse := parse_of_rejected hsplits hending hprogram
    obtain ⟨rfl, rfl⟩ := ParseFailure.fault.inj (Except.error.inj (hparse.symm.trans h))
    rw [List.map_append, List.map_cons] at hprogram
    exact .inl ⟨front, q, _, rejectedAt_of_program hsplits hprogram⟩
  | nil =>
    have hnone := htrouble rfl
    rw [hlex] at hnone
    obtain rfl : trouble = none := hnone
    cases hending with
    | finished hgap =>
      have hparse : parse frames source = .error (unwantedFault wanted none source.toList) := by
        rw [parse, Lexed.parse, hlex, map_token_locate, hprogram, hsplits.eq_append]
        rfl
      obtain ⟨rfl, rfl⟩ := ParseFailure.fault.inj (Except.error.inj (hparse.symm.trans h))
      exact .inr ⟨pieces, left, rejectedAtEnd_of_program hsplits hgap hprogram⟩

/-- A bracket too many after a literal over two lines, and after that a literal without an
end. -/
def strayBracket : String := "x = \"a\nb\" ) \"c"

/-- Its fault. -/
def strayFault : Fault :=
  ⟨.syntactic (.mark .semicolon) (some (.mark .rightParen)), some ⟨2, 4⟩⟩

/-- Arguments that end too early, before a comment. -/
def openArguments : String := "f(x,\n# 2)"

/-- Their fault. -/
def openFault : Fault := ⟨.syntactic .expression none, some ⟨2, 4⟩⟩

theorem parse_strayBracket : parse 400 strayBracket = .error (.fault strayFault ⟨11, 2, 4⟩) := by
  have hlex : lex strayBracket = ⟨[⟨.name "x", ⟨1, 1, 1⟩⟩, ⟨.operator "=", ⟨3, 1, 3⟩⟩,
      ⟨.text "a\nb", ⟨9, 2, 2⟩⟩, ⟨.mark .rightParen, ⟨11, 2, 4⟩⟩], ⟨[], ⟨14, 2, 7⟩⟩,
      some .unterminated⟩ := by
    decide +kernel
  rw [parse, hlex]
  rfl

theorem parse_openArguments : parse 400 openArguments = .error (.fault openFault ⟨9, 2, 4⟩) := by
  have hlex : lex openArguments = ⟨[⟨.name "f", ⟨1, 1, 1⟩⟩, ⟨.mark .leftParen, ⟨2, 1, 2⟩⟩,
      ⟨.name "x", ⟨3, 1, 3⟩⟩, ⟨.mark .comma, ⟨4, 1, 4⟩⟩], ⟨[], ⟨9, 2, 4⟩⟩, none⟩ := by
    decide +kernel
  rw [parse, hlex]
  rfl

theorem rejected_at_first_impossible_samples :
    parse 400 strayBracket = .error (.fault strayFault ⟨11, 2, 4⟩) ∧
    ((∃ front q left, RejectedAt 400 strayBracket strayFault ⟨11, 2, 4⟩ front q left) ∨
      ∃ front left, RejectedAtEnd strayBracket strayFault ⟨11, 2, 4⟩ front left) ∧
    parse 400 openArguments = .error (.fault openFault ⟨9, 2, 4⟩) ∧
    ((∃ front q left, RejectedAt 400 openArguments openFault ⟨9, 2, 4⟩ front q left) ∨
      ∃ front left, RejectedAtEnd openArguments openFault ⟨9, 2, 4⟩ front left) :=
  ⟨parse_strayBracket, rejected_at_first_impossible parse_strayBracket rfl, parse_openArguments,
    rejected_at_first_impossible parse_openArguments rfl⟩

end Lamlet
