import Lamlet.Proofs.Grammar.Language
import Lamlet.Proofs.Token.Splitting

/-!
# One token of lookahead

A lexer computes its tokens as it is asked for them, and keeps a token that has only been
looked at in a slot, its input being past that token already.  Who asks notices nothing of
this: at every moment the lexer answers as the list of the tokens still to come does, in
whatever order it has been asked before.  An empty slot does not mean that the text has
ended, so both must be told apart by reading on.

## Main definitions

* `Lexer.Query`, `Lexer.askAll` — what a lexer can be asked, one query after the other.
* `Lexer.ahead`, `Lexer.faultAhead` — the tokens still to come, and the fault after them.
* `Lexer.foreseen` — what such tokens come to next.
* `Lexer.Answers` — a lexer gives the answers that go with an outcome.

## Main results

* `Lexer.answers_ahead` — every lexer answers by the tokens ahead of it.
* `Lexer.ahead_of_ask`, `Lexer.ahead_of_askAll` — what queries leave of them.
* `Lexer.lookahead_transparent` — **lookahead is transparent.**
-/

namespace Lamlet.Lexer

/-! ### Queries -/

/-- What a lexer can be asked. -/
inductive Query where
  /-- For the next token, which is kept. -/
  | peek
  /-- For the next token, which is consumed. -/
  | next
  /-- Whether there is none. -/
  | atEnd
  deriving DecidableEq, Repr, Inhabited

/-- The lexer after a query, unless that raises a fault. -/
def ask (l : Lexer) : Query → Except Fault Lexer
  | .peek => l.peek.1.map fun _ => l.peek.2
  | .next => l.next.1.map fun _ => l.next.2
  | .atEnd => l.atEnd.1.map fun _ => l.atEnd.2

/-- The lexer after queries in turn, up to the first one that raises a fault. -/
def askAll (l : Lexer) : List Query → Except Fault Lexer
  | [] => .ok l
  | q :: queries => do
    let l ← l.ask q
    l.askAll queries

/-- What tokens still to come, and a fault after them, come to next. -/
def foreseen : List Token → Option Fault → Except Fault (Option Token)
  | t :: _, _ => .ok (some t)
  | [], none => .ok none
  | [], some fault => .error fault

/-- The lexer gives the answers that go with an outcome, whichever way it is asked. -/
structure Answers (l : Lexer) (outcome : Except Fault (Option Token)) : Prop where
  next : l.next.1 = outcome
  peek : l.peek.1 = outcome
  /-- It is at its end iff it has no token to give. -/
  atEnd : l.atEnd.1 = outcome.map Option.isNone
  /-- What has been looked at is what is consumed then. -/
  peek_next : ∀ found, outcome = .ok found → l.peek.2.next.1 = .ok found

/-! ### What is still to come -/

/-- The tokens still to come: the one in the slot, and those of the input. -/
def ahead (l : Lexer) : List Token := l.slot.toList ++ l.input.lex.tokens.map (·.token)

/-- The fault after the tokens still to come, if there is one. -/
def faultAhead (l : Lexer) : Option Fault := l.input.lex.fault?

theorem foreseen_eq_error {ts : List Token} {fault : Option Fault} {f : Fault}
    (h : foreseen ts fault = .error f) : fault = some f := by
  cases ts with
  | cons t ts => cases h
  | nil =>
    cases fault with
    | none => cases h
    | some fault => rw [Except.error.inj h]

/-- An input at its end has nothing to give, however often it is asked. -/
theorem lex_skipGap_of_finished {i : Input} (h : scan i.skipGap.rest = .finished) :
    i.skipGap.lex = ⟨[], i.skipGap, none⟩ := by
  generalize i.skipGap = j at h
  obtain ⟨rest, place⟩ := j
  cases rest with
  | nil => exact Input.lex_of_lastGap (.gap .nil) place
  | cons c cs => exact absurd h (scan_cons_ne_finished c cs)

/-- **Reading on gives the first of the tokens to come,** and leaves the others. -/
theorem readNext_ahead (i : Input) (slot : Option Token) :
    (readNext ⟨i, slot⟩).1 = foreseen (i.lex.tokens.map (·.token)) i.lex.fault? ∧
    ∀ found, (readNext ⟨i, slot⟩).1 = .ok found →
      (readNext ⟨i, slot⟩).2.slot = slot ∧
      i.lex.tokens.map (·.token)
        = found.toList ++ (readNext ⟨i, slot⟩).2.input.lex.tokens.map (·.token) ∧
      (readNext ⟨i, slot⟩).2.input.lex.fault? = i.lex.fault? := by
  have hlex := i.lex_eq
  have hread : readNext ⟨i, slot⟩ = accept ⟨i.skipGap, slot⟩ (scan i.skipGap.rest) := rfl
  cases hscan : scan i.skipGap.rest with
  | finished =>
    rw [hscan] at hlex hread
    rw [hread, hlex]
    refine ⟨rfl, fun found hfound => ?_⟩
    obtain rfl : none = found := Except.ok.inj hfound
    -- behind the last token there is a gap, and skipping it changes nothing
    simp only [accept, lex_skipGap_of_finished hscan]
    exact ⟨trivial, rfl, rfl⟩
  | stuck why consumed rest =>
    rw [hscan] at hlex hread
    rw [hread, hlex]
    exact ⟨rfl, fun found hfound => by cases hfound⟩
  | token t lexeme rest =>
    rw [hscan] at hlex hread
    rw [hread, hlex]
    refine ⟨rfl, fun found hfound => ?_⟩
    obtain rfl : some t = found := Except.ok.inj hfound
    exact ⟨rfl, rfl, rfl⟩

theorem next_eq (l : Lexer) : l.next.1 = foreseen l.ahead l.faultAhead := by
  obtain ⟨i, slot⟩ := l
  cases slot with
  | some t => rfl
  | none => exact (readNext_ahead i none).1

/-- Looking at a token leaves all of them still to come. -/
theorem peek_eq (l : Lexer) :
    l.peek.1 = foreseen l.ahead l.faultAhead ∧
    ∀ found, l.peek.1 = .ok found →
      l.peek.2.ahead = l.ahead ∧ l.peek.2.faultAhead = l.faultAhead := by
  obtain ⟨i, slot⟩ := l
  cases slot with
  | some t => exact ⟨rfl, fun _ _ => ⟨rfl, rfl⟩⟩
  | none =>
    obtain ⟨hanswer, hleft⟩ := readNext_ahead i none
    rcases hread : readNext ⟨i, none⟩ with ⟨outcome, l'⟩
    rw [hread] at hanswer hleft
    cases outcome with
    | error fault =>
      have hpeek : peek ⟨i, none⟩ = (.error fault, l') := by simp only [peek, hread]
      rw [hpeek]
      exact ⟨hanswer, fun found hfound => by cases hfound⟩
    | ok found =>
      obtain ⟨-, htokens, hfault⟩ := hleft found rfl
      have hpeek : peek ⟨i, none⟩ = (.ok found, { l' with slot := found }) := by
        simp only [peek, hread]
      rw [hpeek]
      -- the token read goes from the input into the slot
      exact ⟨hanswer, fun _ _ => ⟨htokens.symm, hfault⟩⟩

/-- Consuming a token leaves those after it. -/
theorem ahead_of_next {l : Lexer} {found : Option Token} (h : l.next.1 = .ok found) :
    l.next.2.ahead = l.ahead.tail ∧ l.next.2.faultAhead = l.faultAhead := by
  obtain ⟨i, slot⟩ := l
  cases slot with
  | some t => exact ⟨rfl, rfl⟩
  | none =>
    obtain ⟨hanswer, hleft⟩ := readNext_ahead i none
    obtain ⟨hslot, htokens, hfault⟩ := hleft found h
    refine ⟨?_, hfault⟩
    have hahead : (next ⟨i, none⟩).2.ahead
        = (readNext ⟨i, none⟩).2.input.lex.tokens.map (·.token) := by
      show (readNext ⟨i, none⟩).2.slot.toList ++ _ = _
      rw [hslot]
      rfl
    rw [hahead]
    show _ = (i.lex.tokens.map (·.token)).tail
    cases found with
    | some t => rw [htokens]; rfl
    | none =>
      -- no token was found, so that none is left either
      rw [show (readNext ⟨i, none⟩).1 = .ok none from h] at hanswer
      cases hts : i.lex.tokens.map (·.token) with
      | nil => simpa [hts] using htokens.symm
      | cons t ts =>
        rw [hts] at hanswer
        cases hanswer

theorem atEnd_eq (l : Lexer) :
    l.atEnd = (l.peek.1.map Option.isNone, l.peek.2) := by
  unfold atEnd
  rcases l.peek with ⟨outcome, l'⟩
  cases outcome <;> rfl

/-- **Every lexer answers by the tokens ahead of it.**  Whether it has looked at a token already
or not, looking, taking and asking for the end all answer by the first token to come, or by the
fault behind the last one; what was looked at before has no other effect. -/
theorem answers_ahead (l : Lexer) : l.Answers (foreseen l.ahead l.faultAhead) := by
  obtain ⟨hpeek, hkept⟩ := l.peek_eq
  refine ⟨l.next_eq, hpeek, by rw [atEnd_eq, hpeek], fun found hfound => ?_⟩
  obtain ⟨hahead, hfault⟩ := hkept found (hpeek.trans hfound)
  rw [next_eq, hahead, hfault, hfound]

/-! ### One query after the other -/

theorem exists_of_map_eq_ok {α β : Type} {x : Except Fault α} {f : α → β} {b : β}
    (h : x.map f = .ok b) : ∃ a, x = .ok a ∧ f a = b := by
  cases x with
  | error fault => cases h
  | ok a => exact ⟨a, rfl, Except.ok.inj h⟩

theorem eq_error_of_map_eq_error {α β : Type} {x : Except Fault α} {f : α → β} {fault : Fault}
    (h : x.map f = .error fault) : x = .error fault := by
  cases x with
  | error fault => rw [Except.error.inj h]
  | ok a => cases h

/-- **What a query leaves:** all tokens but the one that it consumes. -/
theorem ahead_of_ask {l l' : Lexer} {q : Query} (h : l.ask q = .ok l') :
    l'.ahead = l.ahead.drop ([q].count .next) ∧ l'.faultAhead = l.faultAhead := by
  cases q with
  | peek =>
    obtain ⟨found, hfound, rfl⟩ := exists_of_map_eq_ok h
    exact l.peek_eq.2 found hfound
  | next =>
    obtain ⟨found, hfound, rfl⟩ := exists_of_map_eq_ok h
    rw [show [Query.next].count .next = 1 from rfl, List.drop_one]
    exact ahead_of_next hfound
  | atEnd =>
    rw [ask, atEnd_eq] at h
    obtain ⟨none?, hnone?, rfl⟩ := exists_of_map_eq_ok h
    obtain ⟨found, hfound, -⟩ := exists_of_map_eq_ok hnone?
    exact l.peek_eq.2 found hfound

/-- A query can only raise the fault after all tokens. -/
theorem faultAhead_of_ask {l : Lexer} {q : Query} {fault : Fault} (h : l.ask q = .error fault) :
    l.faultAhead = some fault := by
  have hanswers := l.answers_ahead
  cases q with
  | peek => exact foreseen_eq_error (hanswers.peek.symm.trans (eq_error_of_map_eq_error h))
  | next => exact foreseen_eq_error (hanswers.next.symm.trans (eq_error_of_map_eq_error h))
  | atEnd =>
    have hatEnd := hanswers.atEnd.symm.trans (eq_error_of_map_eq_error h)
    exact foreseen_eq_error (eq_error_of_map_eq_error hatEnd)

/-- **What queries leave:** all tokens but those that they consume. -/
theorem ahead_of_askAll {l l' : Lexer} {queries : List Query} (h : l.askAll queries = .ok l') :
    l'.ahead = l.ahead.drop (queries.count .next) ∧ l'.faultAhead = l.faultAhead := by
  induction queries generalizing l with
  | nil =>
    obtain rfl := Except.ok.inj h
    exact ⟨rfl, rfl⟩
  | cons q queries ih =>
    obtain ⟨l₁, hq, hqueries⟩ := exists_of_bind_eq_ok h
    obtain ⟨hahead₁, hfault₁⟩ := ahead_of_ask hq
    obtain ⟨hahead, hfault⟩ := ih hqueries
    refine ⟨?_, hfault.trans hfault₁⟩
    rw [hahead, hahead₁, List.drop_drop, ← List.count_append, List.singleton_append]

theorem faultAhead_of_askAll {l : Lexer} {queries : List Query} {fault : Fault}
    (h : l.askAll queries = .error fault) : l.faultAhead = some fault := by
  induction queries generalizing l with
  | nil => cases h
  | cons q queries ih =>
    rcases eq_error_or_of_bind_eq_error h with hq | ⟨l₁, hq, hqueries⟩
    · exact faultAhead_of_ask hq
    · rw [← (ahead_of_ask hq).2]
      exact ih hqueries

/-- **Lookahead is transparent.**  Let a fresh lexer yield some tokens, and perhaps a fault
after them.  However it is asked, as long as that raises no fault, its next token is the one
after as many tokens as have been consumed, whether it is looked at or consumed; at the end
there is none, or the fault is raised by every query alike.  No other fault is ever raised. -/
theorem lookahead_transparent (source : String) :
    ∃ tokens fault, (ofString source).Yields tokens fault ∧ ∀ queries : List Query,
      (∀ l, (ofString source).askAll queries = .ok l →
        l.Answers (foreseen ((tokens.map (·.token)).drop (queries.count .next)) fault)) ∧
      ∀ f, (ofString source).askAll queries = .error f → fault = some f := by
  refine ⟨_, _, yields_lex (.ofString source), fun queries => ⟨fun l hasked => ?_, ?_⟩⟩
  · obtain ⟨hahead, hfault⟩ := ahead_of_askAll hasked
    have hanswers := l.answers_ahead
    rwa [hahead, hfault] at hanswers
  · intro f hasked
    exact faultAhead_of_askAll hasked

end Lamlet.Lexer
