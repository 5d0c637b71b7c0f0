import Lamlet.Proofs.Grammar.Lookahead
import Lamlet.Proofs.Grammar.Viable
import Lamlet.Proofs.Token.Slot

/-!
# Readers at work on a lexer

A reader is given all tokens from some point on, while a lexer hands them out one after the
other and may come to a fault behind them.  Readers look one token ahead; so when one is done,
its lexer has been asked for the tokens that were consumed and has looked at the next one, in
whatever order that happened.  If there is a fault instead of a next token, it is raised then.

## Main definitions

* `Lexer.lookPast` — consumes some tokens and looks at the one after them.
* `Lexer.read` — what a reader returns at a lexer, and the state in which it leaves it.

## Main results

* `Lexer.lookPast_eq` — the token that is looked at, and those still to come.
* `Lexer.lookPast_of_askAll` — the state does not depend on the queries that led to it.
* `Lexer.read_eq_ok_iff` — how a reader returns.
* `Lexer.read_next` — **a reader goes on in the state that the one before it leaves.**
* `Lexer.read_program` — **a text is parsed as its program is read at a fresh lexer,** with the
  same fault at the same place.
-/

namespace Lamlet

namespace Lexer

open Grammar

/-! ### States -/

/-- Consumes a number of tokens and looks at the one after them. -/
def lookPast : Nat → Lexer → Except Fault (Option Token) × Lexer
  | 0, l => l.peek
  | n + 1, l =>
    match l.next with
    | (.ok _, l) => l.lookPast n
    | (.error fault, l) => (.error fault, l)

/-- Looks at the first of the tokens that are left, the others being consumed. -/
def lookAt (l : Lexer) (rest : List Token) : Except ParseFailure (Option Token × Lexer) :=
  match l.lookPast (l.ahead.length - rest.length) with
  | (.ok found, l) => .ok (found, l)
  | (.error fault, l) => .error (.fault fault l.input.place)

/-- A reader at work on a lexer: it is given the tokens still to come, and the lexer is left
looking at the first of those that it leaves.  Where it rejects that token, the fault is placed
where the lexer has come to. -/
def read {α : Type} (l : Lexer) (p : Reader α) : Except ParseFailure (α × Lexer) :=
  match p l.ahead with
  | .ok (a, rest) => do
    let (_, l) ← l.lookAt rest
    return (a, l)
  | .error .tooDeep => .error .tooDeep
  | .error (.unwanted wanted rest) => do
    let (found, l) ← l.lookAt rest
    .error (.fault (.atPlace (.syntactic wanted found) l.input.place) l.input.place)

/-! ### Looking past tokens -/

theorem eq_head?_of_foreseen {ts : List Token} {fault : Option Fault} {found : Option Token}
    (h : foreseen ts fault = .ok found) : found = ts.head? := by
  cases ts with
  | cons t ts => exact (Except.ok.inj h).symm
  | nil =>
    cases fault with
    | none => exact (Except.ok.inj h).symm
    | some fault => cases h

/-- A fault comes up only when no token is left. -/
theorem eq_nil_of_foreseen {ts : List Token} {fault : Option Fault} {f : Fault}
    (h : foreseen ts fault = .error f) : ts = [] := by
  cases ts with
  | nil => rfl
  | cons t ts => cases h

/-- There is no gap left at the end of an input. -/
theorem skipGap_of_finished {i : Input} (h : scan i.skipGap.rest = .finished) :
    i.skipGap.skipGap = i.skipGap := by
  generalize i.skipGap = j at h
  obtain ⟨rest, place⟩ := j
  cases rest with
  | nil => rfl
  | cons c cs => exact absurd h (scan_cons_ne_finished c cs)

/-- What has been looked at is found again, and consumed as if it had not been looked at. -/
theorem peek_again {l l' : Lexer} {found : Option Token} (h : l.peek = (.ok found, l')) :
    l'.peek = (.ok found, l') ∧ l'.next = l.next := by
  obtain ⟨i, slot⟩ := l
  cases slot with
  | some t =>
    obtain ⟨hfound, rfl⟩ := Prod.mk.inj h
    exact ⟨by rw [← hfound]; rfl, rfl⟩
  | none =>
    -- the slot was empty, so that a token had to be read
    cases hscan : scan i.skipGap.rest with
    | finished =>
      have hread : readNext ⟨i, none⟩ = (.ok none, ⟨i.skipGap, none⟩) := by
        simp [readNext, hscan, accept]
      have hagain : readNext ⟨i.skipGap, none⟩ = (.ok none, ⟨i.skipGap, none⟩) := by
        simp [readNext, skipGap_of_finished hscan, hscan, accept]
      have hpeek : peek ⟨i, none⟩ = (.ok none, ⟨i.skipGap, none⟩) := by simp [peek, hread]
      obtain ⟨hfound, rfl⟩ := Prod.mk.inj (hpeek.symm.trans h)
      obtain rfl := Except.ok.inj hfound
      exact ⟨by simp [peek, hagain], hagain.trans hread.symm⟩
    | stuck why consumed rest => simp [peek, readNext, hscan, accept] at h
    | token t lexeme rest =>
      have hread : readNext ⟨i, none⟩ = (.ok (some t), ⟨i.skipGap.consume lexeme rest, none⟩) := by
        simp [readNext, hscan, accept, consume]
      have hpeek : peek ⟨i, none⟩ = (.ok (some t), ⟨i.skipGap.consume lexeme rest, some t⟩) := by
        simp [peek, hread]
      obtain ⟨hfound, rfl⟩ := Prod.mk.inj (hpeek.symm.trans h)
      exact ⟨by rw [← hfound]; rfl, hread.symm⟩

theorem lookPast_succ_of_next {l l' : Lexer} {found : Option Token}
    (h : l.next = (.ok found, l')) (n : Nat) : l.lookPast (n + 1) = l'.lookPast n := by
  simp only [lookPast, h]

/-- **What is found past some tokens** is the first of those still to come then; nothing else is
lost. -/
theorem lookPast_eq (l : Lexer) (n : Nat) :
    (l.lookPast n).1 = foreseen (l.ahead.drop n) l.faultAhead ∧
    ∀ found, (l.lookPast n).1 = .ok found →
      (l.lookPast n).2.ahead = l.ahead.drop n ∧ (l.lookPast n).2.faultAhead = l.faultAhead := by
  induction n generalizing l with
  | zero => exact l.peek_eq
  | succ n ih =>
    have hanswer := l.next_eq
    rcases hnext : l.next with ⟨outcome, l'⟩
    cases outcome with
    | error fault =>
      -- the fault comes up as soon as the tokens have been used up
      have hlook : l.lookPast (n + 1) = (.error fault, l') := by simp only [lookPast, hnext]
      rw [hnext] at hanswer
      have hnil := eq_nil_of_foreseen hanswer.symm
      rw [hnil] at hanswer
      rw [hlook, hnil]
      exact ⟨hanswer, fun found hfound => by cases hfound⟩
    | ok found =>
      have hok : l.next.1 = .ok found := by rw [hnext]
      obtain ⟨hahead, hfault⟩ := ahead_of_next hok
      have hrest := ih l'
      rw [hnext] at hahead hfault
      rw [hahead, hfault, List.drop_tail] at hrest
      rwa [lookPast_succ_of_next hnext]

/-- Looking on from a state that has been looked at is looking from the state before. -/
theorem lookPast_add {l l' : Lexer} {n : Nat} {found : Option Token}
    (h : l.lookPast n = (.ok found, l')) (m : Nat) : l'.lookPast m = l.lookPast (n + m) := by
  induction n generalizing l with
  | zero =>
    -- to look once more changes nothing
    obtain ⟨hpeek, hnext⟩ := peek_again h
    rw [Nat.zero_add]
    cases m with
    | zero => exact hpeek.trans h.symm
    | succ m => simp only [lookPast, hnext]
  | succ n ih =>
    rcases hnext : l.next with ⟨outcome, l₁⟩
    cases outcome with
    | error fault => simp [lookPast, hnext] at h
    | ok first =>
      rw [lookPast_succ_of_next hnext] at h
      rw [Nat.add_right_comm, lookPast_succ_of_next hnext]
      exact ih h

/-- A query that consumes nothing is a look at the next token. -/
theorem peek_of_ask {l l' : Lexer} {q : Query} (hq : q ≠ .next) (h : l.ask q = .ok l') :
    ∃ found, l.peek = (.ok found, l') := by
  cases q with
  | peek =>
    obtain ⟨found, hfound, rfl⟩ := exists_of_map_eq_ok h
    exact ⟨found, Prod.ext hfound rfl⟩
  | next => exact absurd rfl hq
  | atEnd =>
    rw [ask, atEnd_eq] at h
    obtain ⟨none?, hnone?, rfl⟩ := exists_of_map_eq_ok h
    obtain ⟨found, hfound, -⟩ := exists_of_map_eq_ok hnone?
    exact ⟨found, Prod.ext hfound rfl⟩

/-- **How a lexer is asked does not matter for its state,** only how many tokens are consumed, if
it has looked at the next one in the end. -/
theorem lookPast_of_askAll {l l' : Lexer} {queries : List Query}
    (h : l.askAll (queries ++ [.peek]) = .ok l') :
    ∃ found, l.lookPast (queries.count .next) = (.ok found, l') := by
  induction queries generalizing l with
  | nil =>
    obtain ⟨l₁, hask, hend⟩ := exists_of_bind_eq_ok h
    obtain rfl := Except.ok.inj hend
    exact peek_of_ask (by simp) hask
  | cons q queries ih =>
    obtain ⟨l₁, hask, hmore⟩ := exists_of_bind_eq_ok h
    obtain ⟨found, hlook⟩ := ih hmore
    refine ⟨found, ?_⟩
    by_cases hq : q = .next
    · subst hq
      obtain ⟨first, hfirst, rfl⟩ := exists_of_map_eq_ok hask
      rw [List.count_cons_self, lookPast_succ_of_next (Prod.ext hfirst rfl), hlook]
    · -- a look before the others is none of its own
      obtain ⟨first, hpeek⟩ := peek_of_ask hq hask
      have hsame : l₁.lookPast (queries.count .next) = l.lookPast (0 + queries.count .next) :=
        lookPast_add (n := 0) hpeek _
      rw [List.count_cons_of_ne hq, ← hlook, hsame, Nat.zero_add]

/-- Where a token is found, or nothing is left, no fault comes up before. -/
theorem exists_lookPast_of_add {l l' : Lexer} {n m : Nat} {found : Option Token}
    (h : l.lookPast (n + m) = (.ok found, l')) : ∃ first l₁, l.lookPast n = (.ok first, l₁) := by
  rcases hlook : l.lookPast n with ⟨outcome, l₁⟩
  cases outcome with
  | ok first => exact ⟨first, l₁, rfl⟩
  | error fault =>
    have hn := (l.lookPast_eq n).1
    have hnm := (l.lookPast_eq (n + m)).1
    rw [hlook] at hn
    have hnil := eq_nil_of_foreseen hn.symm
    rw [hnil] at hn
    rw [h, ← List.drop_drop, hnil, List.drop_nil, ← hn] at hnm
    cases hnm

/-- The state past some tokens: the others are still to come, and the first of them has been
found, or there is none and no fault either. -/
theorem state_of_lookPast {l l' : Lexer} {w rest : List Token} {found : Option Token}
    (hahead : l.ahead = w ++ rest) (h : l.lookPast w.length = (.ok found, l')) :
    l'.ahead = rest ∧ l'.Answers (.ok rest.head?) := by
  obtain ⟨hfound, hleft⟩ := l.lookPast_eq w.length
  rw [hahead, List.drop_left, h] at hfound hleft
  obtain ⟨hrest, hfault⟩ := hleft found rfl
  have hanswers := l'.answers_ahead
  rw [hrest, hfault, ← hfound, eq_head?_of_foreseen hfound.symm] at hanswers
  exact ⟨hrest, hanswers⟩

/-! ### Reading in turn -/

section

variable {α β : Type} {L M : List Token → Prop} {p : Reader α} {l l' : Lexer} {a : α}

/-- A reader returns if it does so on the tokens still to come and no fault is in its way. -/
theorem read_eq_ok_iff :
    l.read p = .ok (a, l') ↔ ∃ rest found, p l.ahead = .ok (a, rest) ∧
      l.lookPast (l.ahead.length - rest.length) = (.ok found, l') := by
  constructor
  · intro h
    unfold read at h
    split at h
    · next a' rest hp =>
      obtain ⟨⟨found, l₁⟩, hlook, hreturn⟩ := exists_of_bind_eq_ok h
      obtain ⟨rfl, rfl⟩ := Prod.mk.inj (Except.ok.inj hreturn)
      refine ⟨rest, found, hp, ?_⟩
      unfold lookAt at hlook
      split at hlook
      · next hpast =>
        obtain ⟨rfl, rfl⟩ := Prod.mk.inj (Except.ok.inj hlook)
        exact hpast
      · cases hlook
    · cases h
    · obtain ⟨_, -, hraise⟩ := exists_of_bind_eq_ok h
      cases hraise
  · rintro ⟨rest, found, hp, hlook⟩
    simp only [read, hp, lookAt, hlook]
    rfl

/-- The same for a reader that consumes what it does not leave. -/
theorem read_eq_ok_iff_of_consumes (hp : Consumes L p) :
    l.read p = .ok (a, l') ↔ ∃ w rest found, l.ahead = w ++ rest ∧
      p (w ++ rest) = .ok (a, rest) ∧ l.lookPast w.length = (.ok found, l') := by
  rw [read_eq_ok_iff]
  constructor
  · rintro ⟨rest, found, hread, hlook⟩
    obtain ⟨w, -, hahead⟩ := hp hread
    rw [hahead] at hread hlook
    refine ⟨w, rest, found, hahead, hread, ?_⟩
    rwa [List.length_append, Nat.add_sub_cancel] at hlook
  · rintro ⟨w, rest, found, hahead, hread, hlook⟩
    refine ⟨rest, found, by rw [hahead, hread], ?_⟩
    rwa [hahead, List.length_append, Nat.add_sub_cancel]

/-- A reader that consumes nothing leaves a state in which another reader ended as it is. -/
theorem read_of_idle {q : Reader β} {b : β} (h : l.read p = .ok (a, l'))
    (hq : q l'.ahead = .ok (b, l'.ahead)) : l'.read q = .ok (b, l') := by
  obtain ⟨rest, found, -, hlook⟩ := read_eq_ok_iff.1 h
  refine read_eq_ok_iff.2 ⟨l'.ahead, found, hq, ?_⟩
  rw [Nat.sub_self, lookPast_add hlook, Nat.add_zero, hlook]

/-- The state in which a reader ends: what it leaves is still to come, and no fault before it. -/
theorem state_of_read (hp : Consumes L p) (h : l.read p = .ok (a, l')) :
    p l.ahead = .ok (a, l'.ahead) ∧ l'.Answers (.ok l'.ahead.head?) := by
  obtain ⟨w, rest, found, hahead, hread, hlook⟩ := (read_eq_ok_iff_of_consumes hp).1 h
  obtain ⟨rfl, hanswers⟩ := state_of_lookPast hahead hlook
  exact ⟨by rw [hahead, hread], hanswers⟩

/-- What two readers consume, one after the other. -/
theorem length_consumed {ts w v rest : List Token} (h : ts = w ++ (v ++ rest)) :
    ts.length - rest.length = w.length + v.length := by
  simp only [h, List.length_append]
  omega

/-- **A reader goes on in the state that the one before it leaves.**  To run two readers one after
the other on the tokens to come is to run the first one at a lexer and the second one at the lexer
that comes of that; the token that the first one has looked at is found again by the second. -/
theorem read_next {k : α → Reader β} (hp : Consumes L p) (hk : ∀ a, Consumes M (k a)) {b : β} :
    l.read (fun ts => p ts >>= fun first => k first.1 first.2) = .ok (b, l') ↔
      ∃ a l₁, l.read p = .ok (a, l₁) ∧ l₁.read (k a) = .ok (b, l') := by
  constructor
  · intro h
    obtain ⟨rest, found, hread, hlook⟩ := read_eq_ok_iff.1 h
    obtain ⟨⟨a, ts⟩, hfirst, hsecond⟩ := exists_of_bind_eq_ok hread
    obtain ⟨w, -, hahead⟩ := hp hfirst
    obtain ⟨v, -, rfl⟩ := hk a hsecond
    rw [length_consumed hahead] at hlook
    -- the way past both words leads through the state between them
    obtain ⟨first, l₁, hpast⟩ := exists_lookPast_of_add hlook
    obtain ⟨hleft, -⟩ := state_of_lookPast hahead hpast
    refine ⟨a, l₁, (read_eq_ok_iff_of_consumes hp).2 ⟨w, _, first, hahead, ?_, hpast⟩,
      (read_eq_ok_iff_of_consumes (hk a)).2 ⟨v, rest, found, hleft, hsecond, ?_⟩⟩
    · rw [← hahead, hfirst]
    · rw [lookPast_add hpast, hlook]
  · rintro ⟨a, l₁, hfirst, hsecond⟩
    obtain ⟨w, ts, first, hahead, hfirst, hpast⟩ := (read_eq_ok_iff_of_consumes hp).1 hfirst
    obtain ⟨v, rest, found, hleft, hsecond, hlook⟩ :=
      (read_eq_ok_iff_of_consumes (hk a)).1 hsecond
    obtain ⟨hts, -⟩ := state_of_lookPast hahead hpast
    obtain rfl : ts = v ++ rest := hts.symm.trans hleft
    refine read_eq_ok_iff.2 ⟨rest, found, ?_, ?_⟩
    · rw [hahead, hfirst]
      exact hsecond
    · rw [length_consumed hahead, ← lookPast_add hpast, hlook]

end

/-! ### Whole programs -/

/-- The place that has been reached past some tokens is that right after the one found, or where
reading the text stopped. -/
theorem place_lookPast (i : Input) {n : Nat} (h : n ≤ i.lex.tokens.length) :
    (lookPast n ⟨i, none⟩).2.input.place
      = ((i.lex.tokens.drop n).head?.map Located.after).getD i.lex.stop.place := by
  induction n generalizing i with
  | zero =>
    rw [i.lex_eq, List.drop_zero]
    cases hscan : scan i.skipGap.rest with
    | finished => simp [lookPast, peek, readNext, hscan, accept, Input.lexAfter]
    | stuck why consumed rest =>
      simp [lookPast, peek, readNext, hscan, accept, consume, Input.lexAfter]
    | token t lexeme rest =>
      simp [lookPast, peek, readNext, hscan, accept, consume, Input.lexAfter]
  | succ n ih =>
    have hlex := i.lex_eq
    cases hscan : scan i.skipGap.rest with
    | finished => simp [hlex, hscan, Input.lexAfter] at h
    | stuck why consumed rest => simp [hlex, hscan, Input.lexAfter] at h
    | token t lexeme rest =>
      -- the token that is looked past is gone, and the text behind it is lexed as before
      have hnext : next ⟨i, none⟩ = (.ok (some t), ⟨i.skipGap.consume lexeme rest, none⟩) := by
        simp [next, readNext, hscan, accept, consume]
      rw [hscan] at hlex
      rw [hlex] at h ⊢
      rw [lookPast_succ_of_next hnext]
      exact ih _ (Nat.le_of_succ_le_succ h)

section

variable {i : Input} {w rest : List Token} (h : i.lex.tokens.map (·.token) = w ++ rest)

include h

theorem length_tokens_eq : i.lex.tokens.length = w.length + rest.length := by
  rw [← List.length_append, ← h, List.length_map]

/-- The place of the first of the tokens that are left, the others being before it. -/
theorem placeOf_eq :
    i.lex.placeOf rest
      = ((i.lex.tokens.drop w.length).head?.map Located.after).getD i.lex.stop.place := by
  have hlength := length_tokens_eq h
  cases rest with
  | nil =>
    rw [← Nat.add_zero w.length, ← List.length_nil, ← hlength, List.drop_length]
    rfl
  | cons t rest =>
    rw [Lexed.placeOf, hlength, Nat.add_sub_cancel]
    cases i.lex.tokens.drop w.length <;> rfl

/-- Looking at the first of the tokens that are left raises what stopped the tokens, if none is
left, or comes to the place of that token. -/
theorem lookAt_cases :
    (rest = [] ∧ ∃ fault, i.lex.fault? = some fault ∧
      lookAt ⟨i, none⟩ rest = .error (.fault fault i.lex.stop.place)) ∨
    ((rest = [] → i.lex.fault? = none) ∧
      ∃ l, lookAt ⟨i, none⟩ rest = .ok (rest.head?, l) ∧ l.input.place = i.lex.placeOf rest) := by
  have hahead : ahead ⟨i, none⟩ = w ++ rest := h
  have hle : w.length ≤ i.lex.tokens.length := Nat.le.intro (length_tokens_eq h).symm
  have hfound : (lookPast w.length ⟨i, none⟩).1 = foreseen rest i.lex.fault? := by
    rw [(lookPast_eq ⟨i, none⟩ w.length).1, hahead, List.drop_left]
    rfl
  have hplace : (lookPast w.length ⟨i, none⟩).2.input.place = i.lex.placeOf rest :=
    (place_lookPast i hle).trans (placeOf_eq h).symm
  rw [lookAt, hahead, List.length_append, Nat.add_sub_cancel]
  generalize lookPast w.length ⟨i, none⟩ = looked at hfound hplace ⊢
  obtain ⟨outcome, l⟩ := looked
  -- the look finds the first of the tokens that are left, or what is wrong behind the last one
  cases outcome with
  | ok found =>
    obtain rfl := eq_head?_of_foreseen hfound.symm
    refine .inr ⟨fun hrest => ?_, l, rfl, hplace⟩
    subst hrest
    cases hfault : i.lex.fault? with
    | none => rfl
    | some fault =>
      rw [hfault] at hfound
      cases hfound
  | error fault =>
    obtain rfl := eq_nil_of_foreseen hfound.symm
    have hstop : l.input.place = i.lex.stop.place := hplace
    exact .inl ⟨rfl, fault, foreseen_eq_error hfound.symm, by simp only [hstop]⟩

/-- A rejected token is reported as the lexer finds it. -/
theorem lookAt_rejection {α : Type} (wanted : Wanted) :
    (do
      let (found, l) ← lookAt ⟨i, none⟩ rest
      .error (.fault (.atPlace (.syntactic wanted found) l.input.place) l.input.place)
      : Except ParseFailure α) = .error (i.lex.rejection wanted rest) := by
  rcases lookAt_cases h with ⟨rfl, fault, hfault, hlook⟩ | ⟨hnone, l, hlook, hplace⟩
  · simp only [hlook, Lexed.rejection, hfault]
    rfl
  · rw [hlook]
    cases rest with
    | nil =>
      simp only [Lexed.rejection, hnone rfl, ← hplace]
      rfl
    | cons t rest =>
      simp only [Lexed.rejection, ← hplace]
      rfl

end

/-- **A text is parsed as its program is read at a fresh lexer.**  The parser that works on all
the tokens of a text at once, and looks up places afterwards, has the outcome of the one that asks
the lexer for a token whenever it needs one: the same program, or the same fault at the same
place. -/
theorem read_program (frames : Nat) (source : String) :
    ((ofString source).read fun ts => wholly (program frames ts)).map Prod.fst
      = (lex source).parse frames := by
  have hahead : (ofString source).ahead = (lex source).tokens.map (·.token) := rfl
  rw [read, hahead, Lexed.parse]
  cases hprogram : program frames ((lex source).tokens.map (·.token)) with
  | ok es =>
    -- a whole program leaves nothing, so that the last look is one at the end
    have hall : (Input.ofString source).lex.tokens.map (·.token)
        = (lex source).tokens.map (·.token) ++ [] := (List.append_nil _).symm
    simp only [wholly, Except.map, ofString]
    rcases lookAt_cases hall with ⟨-, fault, hfault, hlook⟩ | ⟨hnone, l, hlook, -⟩
    · rw [hlook, show (lex source).fault? = some fault from hfault]
      rfl
    · rw [hlook, show (lex source).fault? = none from hnone rfl]
      rfl
  | error reject =>
    cases reject with
    | tooDeep => rfl
    | unwanted wanted rest =>
      obtain ⟨w, -, -, hsplit⟩ := exists_derives_of_rejected hprogram
      simp only [wholly, Except.map, ofString]
      rw [lookAt_rejection hsplit wanted]
      rfl

end Lexer

end Lamlet
