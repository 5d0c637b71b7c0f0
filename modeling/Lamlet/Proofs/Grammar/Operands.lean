import Lamlet.Proofs.Grammar.Extension

/-!
# Operands that are closed to the right

A name, a literal, an expression in brackets, a block or a call ends with a token of its own.
What follows it is not looked at, so such an operand is read in the same way wherever it
stands, if there are as many frames for it as it takes on its own: as the expression that it is,
with the calls that may follow it.

## Main definitions

* `Sealed` — a reader that does not look at what follows.
* `Closed`, `Operand` — operands that are closed to the right.
* `Operand.term` — the term of an operand on its own.

## Main results

* `Sealed.bind`, `Sealed.after`, `Sealed.of_head` — how such readers are made.
* `sealed_delimited` — a row with its marks is read whatever follows.
* `Operand.program_word` — an operand is a program of one expression.
* `Operand.atom_eq` — **an operand is read in the same way wherever it stands.**
-/

namespace Lamlet.Grammar

/-! ### Readers that do not look ahead -/

/-- Two sequences that agree up to the token that is left are read in the same way. -/
theorem OneAhead.replace {α : Type} {p : Reader α} (hp : OneAhead p) {w r : List Token}
    {t : Token} {a : α} (h : p (w ++ t :: r) = .ok (a, t :: r)) (r' : List Token) :
    p (w ++ t :: r') = .ok (a, t :: r') := by
  have halike := hp.sees w t r r'
  rw [h] at halike
  generalize hx : (.ok (a, t :: r) : Except Reject (α × List Token)) = x at halike
  generalize p (w ++ t :: r') = y at halike
  cases halike with
  | ok b m =>
    obtain ⟨rfl, hm⟩ := Prod.mk.inj (Except.ok.inj hx)
    have hlength := congrArg List.length hm
    simp only [List.length_append, List.length_cons] at hlength
    obtain rfl : m = [] := List.length_eq_zero_iff.1 (by omega)
    rfl
  | unwanted wanted m => cases hx
  | past hpast =>
    -- the token is still there
    rw [← hx] at hpast
    have hlength : (t :: r).length ≤ r.length := hpast
    rw [List.length_cons] at hlength
    omega

/-- The reader consumes at least one token, and what it reads does not depend on the tokens
that it leaves. -/
structure Sealed {α : Type} (p : Reader α) : Prop where
  consumes : ∀ {ts rest : List Token} {a : α}, p ts = .ok (a, rest) → ∃ t w, ts = t :: (w ++ rest)
  reads : ∀ {w rest : List Token} {a : α}, p (w ++ rest) = .ok (a, rest) →
    ∀ rest', p (w ++ rest') = .ok (a, rest')

namespace Sealed

variable {α β : Type}

theorem unwanted (wanted : Wanted) :
    Sealed (fun ts => .error (.unwanted wanted ts) : Reader α) := by
  constructor
  · intro ts rest a h
    cases h
  · intro w rest a h
    cases h

theorem map {p : Reader α} (hp : Sealed p) (f : α → β) :
    Sealed fun ts => p ts >>= fun b => .ok (f b.1, b.2) := by
  have hread {ts rest : List Token} {b : β}
      (h : (p ts >>= fun b => .ok (f b.1, b.2)) = .ok (b, rest)) :
      ∃ a, p ts = .ok (a, rest) ∧ f a = b := by
    obtain ⟨⟨a, rest'⟩, ha, hb⟩ := exists_of_bind_eq_ok h
    obtain ⟨rfl, rfl⟩ := Prod.mk.inj (Except.ok.inj hb)
    exact ⟨a, ha, rfl⟩
  refine ⟨fun h => ?_, fun h rest' => ?_⟩
  · obtain ⟨a, ha, -⟩ := hread h
    exact hp.consumes ha
  · obtain ⟨a, ha, rfl⟩ := hread h
    simp only [hp.reads ha rest']
    rfl

/-- A reader that looks one token ahead, before one that consumes that token. -/
theorem bind {L : List Token → Prop} {p : Reader α} {k : α → Reader β} (hconsumes : Consumes L p)
    (hp : OneAhead p) (hk : ∀ a, Sealed (k a)) :
    Sealed fun ts => p ts >>= fun b => k b.1 b.2 := by
  refine ⟨fun h => ?_, fun {w rest b} h rest' => ?_⟩
  · obtain ⟨⟨a, ts₁⟩, hfirst, hsecond⟩ := exists_of_bind_eq_ok h
    obtain ⟨u, -, rfl⟩ := hconsumes hfirst
    obtain ⟨t, v, rfl⟩ := (hk a).consumes hsecond
    cases u with
    | nil => exact ⟨t, v, rfl⟩
    | cons t' u => exact ⟨t', u ++ t :: v, by simp⟩
  · -- of what the second reader consumes, the first one sees only the first token
    obtain ⟨⟨a, ts₁⟩, hfirst, hsecond⟩ := exists_of_bind_eq_ok h
    obtain ⟨u, -, hsplit⟩ := hconsumes hfirst
    obtain ⟨t, v, rfl⟩ := (hk a).consumes hsecond
    obtain rfl : w = u ++ t :: v := by
      refine (List.append_left_inj rest).1 ?_
      rw [hsplit, List.append_assoc, List.cons_append]
    rw [List.append_assoc, List.cons_append] at hfirst ⊢
    simp only [hp.replace hfirst (v ++ rest')]
    exact (hk a).reads (w := t :: v) hsecond rest'

/-- A reader after a mark. -/
theorem after {p : Reader α} (m : Punctuation) (hp : Sealed p) :
    Sealed fun ts => expectMark m ts >>= p := by
  refine ⟨fun h => ?_, fun {w rest a} h rest' => ?_⟩
  · obtain ⟨ts₁, hmark, hsecond⟩ := exists_of_bind_eq_ok h
    obtain ⟨t, v, rfl⟩ := hp.consumes hsecond
    exact ⟨.mark m, t :: v, eq_of_expectMark hmark⟩
  · obtain ⟨ts₁, hmark, hsecond⟩ := exists_of_bind_eq_ok h
    obtain ⟨t, v, rfl⟩ := hp.consumes hsecond
    obtain rfl : w = .mark m :: t :: v :=
      (List.append_left_inj rest).1 (eq_of_expectMark hmark)
    simp only [List.cons_append, expectMark_mark]
    exact hp.reads (w := t :: v) hsecond rest'

/-- A reader that is chosen by the first token: it consumes that and nothing else, or goes on
as a sealed reader does. -/
theorem of_head {p : Reader α} (hnil : ∀ a rest, p [] ≠ .ok (a, rest))
    (hcons : ∀ t, (∃ a, ∀ ts, p (t :: ts) = .ok (a, ts)) ∨
      ∃ q : Reader α, Sealed q ∧ ∀ ts, p (t :: ts) = q (t :: ts)) : Sealed p := by
  have hconsumes {ts rest : List Token} {a : α} (h : p ts = .ok (a, rest)) :
      ∃ t w, ts = t :: (w ++ rest) := by
    cases ts with
    | nil => exact absurd h (hnil a rest)
    | cons t ts =>
      rcases hcons t with ⟨b, hb⟩ | ⟨q, hq, hsame⟩
      · rw [hb] at h
        obtain ⟨-, rfl⟩ := Prod.mk.inj (Except.ok.inj h)
        exact ⟨t, [], rfl⟩
      · rw [hsame] at h
        exact hq.consumes h
  refine ⟨hconsumes, fun {w rest a} h rest' => ?_⟩
  cases w with
  | nil =>
    -- a reader that takes its first token cannot have left all of them
    obtain ⟨t, v, hrest⟩ := hconsumes h
    have hlength := congrArg List.length hrest
    simp only [List.nil_append, List.length_cons, List.length_append] at hlength
    omega
  | cons t w =>
    rw [List.cons_append] at h ⊢
    rcases hcons t with ⟨b, hb⟩ | ⟨q, hq, hsame⟩
    · rw [hb] at h ⊢
      obtain ⟨rfl, hrest⟩ := Prod.mk.inj (Except.ok.inj h)
      obtain rfl : w = [] := List.append_left_eq_self.1 hrest
      rfl
    · rw [hsame] at h ⊢
      exact hq.reads (w := t :: w) h rest'

/-- A loop with its tokens as budget, of which only the length counts. -/
theorem of_budget {p : List Token → Reader α} (hp : ∀ budget, Sealed (p budget))
    (hbudget : ∀ {budget budget' ts : List Token}, ts.length ≤ budget.length →
      ts.length ≤ budget'.length → p budget ts = p budget' ts) :
    Sealed fun ts => p ts ts := by
  refine ⟨fun {ts rest a} h => (hp ts).consumes h, fun {w rest a} h rest' => ?_⟩
  -- a budget that covers both sequences
  have hsame {ts : List Token} (hts : ts.length ≤ (w ++ (rest ++ rest')).length) :
      p ts ts = p (w ++ (rest ++ rest')) ts :=
    hbudget (Nat.le_refl _) hts
  rw [hsame (by simp)] at h
  rw [hsame (by simp)]
  exact (hp _).reads h rest'

end Sealed

/-! ### Rows -/

section Rows

variable {α : Type} {L : List Token → Prop} {item : Reader α} (hconsumes : Consumes L item)
  (hitem : OneAhead item)

include hconsumes hitem

theorem sealed_moreItems (close separator : Punctuation) (budget : List Token) :
    Sealed (moreItems close separator item budget) := by
  induction budget with
  | nil =>
    refine .of_head (fun a rest h => by cases h) fun t => ?_
    by_cases ht : t = .mark close
    · refine .inl ⟨[], fun ts => ?_⟩
      simp [moreItems, ht]
    · refine .inr ⟨_, .unwanted (.mark separator), fun ts => ?_⟩
      simp [moreItems, opens_cons_of_ne ht]
  | cons b budget ih =>
    refine .of_head (fun a rest h => by cases h) fun t => ?_
    by_cases ht : t = .mark close
    · refine .inl ⟨[], fun ts => ?_⟩
      simp [moreItems, ht]
    · have hmore := Sealed.after separator (.bind hconsumes hitem fun x => ih.map (x :: ·))
      refine .inr ⟨_, hmore, fun ts => ?_⟩
      simp only [moreItems, opens_cons_of_ne ht]
      rfl

/-- **A row with its marks is read whatever follows it.** -/
theorem sealed_delimited (hnil : ∀ w, L w → w ≠ []) (start close separator : Punctuation) :
    Sealed (delimited start close separator item) := by
  have hmore : Sealed fun ts => moreItems close separator item ts ts :=
    .of_budget (sealed_moreItems hconsumes hitem close separator)
      fun h h' => moreItems_budget hconsumes close separator h h'
  have hitems := Sealed.bind hconsumes hitem fun x => hmore.map (x :: ·)
  refine .after start (.of_head ?_ fun t => ?_)
  · intro xs rest h
    -- there is no item at the end
    obtain ⟨⟨x, ts⟩, hx, -⟩ := exists_of_bind_eq_ok h
    obtain ⟨w, hw, hend⟩ := hconsumes hx
    exact absurd (List.append_eq_nil_iff.1 hend.symm).1 (hnil w hw)
  · by_cases ht : t = .mark close
    · refine .inl ⟨[], fun ts => ?_⟩
      rw [ht]
      exact if_pos (by simp)
    · refine .inr ⟨_, hitems, fun ts => ?_⟩
      exact if_neg (by simp [opens_cons_of_ne ht])

end Rows

/-- A row that is derivable, read at some depth with something behind it, is read at that depth
with anything behind it. -/
theorem delimited_of_derives {frames k : Nat} {s start close : Punctuation}
    (hs : s = .comma ∨ s = .semicolon) (hclose : close = .rightParen ∨ close = .rightBrace)
    {w rest ts : List Token} {es : List Term} (hw : Derives (.row s) w)
    (h : delimited start close s (nested frames k) (.mark start :: (w ++ .mark close :: rest))
      = .ok (es, ts)) (rest' : List Token) :
    delimited start close s (nested frames k) (.mark start :: (w ++ .mark close :: rest'))
      = .ok (es, rest') := by
  -- without a limit the row ends with its mark, so it does here
  obtain ⟨es', hunlimited⟩ := Greedy.readable hw.greedy hs start close rest hclose
  obtain rfl : ts = rest := by
    rcases delimited_below (consumes_nested frames k)
      (fun ts _ => nested_below_unlimited frames k ts) start close s (Nat.le_refl _)
      with ⟨heq, -⟩ | ⟨-, hdeep⟩
    · rw [h, hunlimited] at heq
      exact (Prod.mk.inj (Except.ok.inj heq)).2
    · rw [h] at hdeep
      cases hdeep
  have hsealed : Sealed (delimited start close s (nested frames k)) :=
    sealed_delimited (consumes_nested frames k) (oneAhead_nested frames k)
      (fun _ hw => hw.ne_nil (by simp)) start close s
  have hreads := hsealed.reads (w := .mark start :: (w ++ [.mark close])) (by simpa using h) rest'
  simpa using hreads

/-! ### Operands -/

/-- The words of operands that end with a token of their own. -/
inductive Closed : List Token → Prop where
  | name (n : String) : Closed [.name n]
  | number (x : Number) : Closed [.number x]
  | text (s : String) : Closed [.text s]
  | trueWord : Closed [.keyword .trueWord]
  | falseWord : Closed [.keyword .falseWord]
  | grouped {w : List Token} :
      Derives .expression w → Closed (.mark .leftParen :: (w ++ [.mark .rightParen]))
  | block {w : List Token} :
      Derives (.row .semicolon) w → Closed (.mark .leftBrace :: (w ++ [.mark .rightBrace]))
  | called {w args : List Token} :
      Closed w → Derives (.row .comma) args →
      Closed (w ++ .mark .leftParen :: (args ++ [.mark .rightParen]))

theorem Closed.ne_nil {w : List Token} (h : Closed w) : w ≠ [] := by
  cases h <;> simp

theorem Closed.greedy {w : List Token} (h : Closed w) : Greedy .atom w := by
  induction h with
  | name n => exact .name n
  | number x => exact .number x
  | text s => exact .text s
  | trueWord => exact .trueWord
  | falseWord => exact .falseWord
  | grouped hw =>
    obtain ⟨k, hk⟩ := hw.greedy
    exact .grouped hk
  | block hw => exact .block hw.greedy
  | called _ hargs ih => exact .called ih hargs.greedy

/-- **An operand that is read somewhere is read in the same way everywhere,** with as many
frames: up to the calls that may follow it. -/
theorem Closed.atom_eq {frames : Nat} {w rest ts : List Token} {e : Term} (hw : Closed w)
    (h : atom (nested frames) (w ++ rest) = .ok (e, ts)) :
    ∃ f, ∀ rest', atom (nested frames) (w ++ rest') = calls (nested frames 3) rest' f rest' := by
  induction hw generalizing rest e ts with
  | name n => exact ⟨.var n, fun _ => rfl⟩
  | number x => exact ⟨.number x, fun _ => rfl⟩
  | text s => exact ⟨.text s, fun _ => rfl⟩
  | trueWord => exact ⟨.boolean true, fun _ => rfl⟩
  | falseWord => exact ⟨.boolean false, fun _ => rfl⟩
  | @grouped w hw =>
    rw [List.cons_append, List.append_assoc] at h
    obtain ⟨⟨f, ts₁⟩, hprimary, -⟩ := exists_of_bind_eq_ok h
    obtain ⟨⟨f', ts₂⟩, hinner, -⟩ := exists_of_bind_eq_ok hprimary
    -- without a limit the expression ends before its bracket, so it does here
    obtain ⟨k, hk⟩ := hw.greedy
    obtain ⟨f'', hunlimited⟩ := hk.readable.unlimited (ends_mark .rightParen (by simp) k rest)
    have hread : nested frames 2 (w ++ .mark .rightParen :: rest)
        = .ok (f'', .mark .rightParen :: rest) := by
      rcases nested_below_unlimited frames 2 (w ++ .mark .rightParen :: rest)
        with ⟨heq, -⟩ | ⟨-, hdeep⟩
      · rw [heq, hunlimited]
      · exact absurd (hinner.symm.trans hdeep) nofun
    refine ⟨f'', fun rest' => ?_⟩
    have hgroup : primary ((nested frames).below 2)
        (.mark .leftParen :: (w ++ .mark .rightParen :: rest')) = .ok (f'', rest') := by
      show (nested frames 2 (w ++ .mark .rightParen :: rest') >>= _) = _
      rw [(oneAhead_nested frames 2).replace hread rest']
      rfl
    rw [List.cons_append, List.append_assoc, List.singleton_append, atom, hgroup]
    rfl
  | @block w hw =>
    rw [List.cons_append, List.append_assoc] at h
    obtain ⟨⟨f, ts₁⟩, hprimary, -⟩ := exists_of_bind_eq_ok h
    obtain ⟨⟨es, ts₂⟩, hrow, -⟩ := exists_of_bind_eq_ok hprimary
    refine ⟨blockOf es, fun rest' => ?_⟩
    have hblock : primary ((nested frames).below 2)
        (.mark .leftBrace :: (w ++ .mark .rightBrace :: rest')) = .ok (blockOf es, rest') := by
      show (delimited .leftBrace .rightBrace .semicolon (nested frames 4) _ >>= _) = _
      rw [delimited_of_derives (.inr rfl) (.inr rfl) hw hrow rest']
      rfl
    rw [List.cons_append, List.append_assoc, List.singleton_append, atom, hblock]
    rfl
  | @called w args hw hargs ih =>
    rw [List.append_assoc, List.cons_append, List.append_assoc] at h
    obtain ⟨f, hf⟩ := ih h
    rw [hf, calls_eq (consumes_nested frames 3)] at h
    obtain ⟨⟨es, ts₁⟩, hrow, -⟩ := exists_of_bind_eq_ok h
    refine ⟨.call f es, fun rest' => ?_⟩
    rw [List.append_assoc, List.cons_append, List.append_assoc, List.singleton_append, hf,
      calls_eq (consumes_nested frames 3)]
    show (delimited .leftParen .rightParen .comma (nested frames 3) _ >>= _) = _
    rw [delimited_of_derives (.inl rfl) (.inl rfl) hargs hrow rest']
    rfl

/-- An operand that is closed to the right: a name, a literal, an expression in brackets, a
block, or a call of such an operand. -/
structure Operand where
  /-- Its tokens. -/
  word : List Token
  /-- It ends with a token of its own. -/
  closed : Closed word

namespace Operand

/-- The term of an operand on its own. -/
def term (o : Operand) : Term :=
  match unlimitedProgram o.word with
  | .ok [e] => e
  | _ => .missing

theorem atom_word (o : Operand) : atom unlimited o.word = .ok (o.term, []) := by
  obtain ⟨e, he⟩ := o.closed.greedy.readable []
  rw [List.append_nil, calls_of_not_opens rfl] at he
  have hprogram := unlimitedProgram_of_last (unlimited_of_atom he stops_nil)
  rw [term, hprogram]
  exact he

/-- **An operand is a program of one expression.** -/
theorem program_word (o : Operand) : unlimitedProgram o.word = .ok [o.term] :=
  unlimitedProgram_of_last (unlimited_of_atom o.atom_word stops_nil)

/-- **An operand is read in the same way wherever it stands,** unless it is too deep on its own.
On its own it has four frames less than the program: those of the expression and of the readers
between it and the operand. -/
theorem atom_eq (o : Operand) {frames frames' : Nat} (h : program frames o.word ≠ .error .tooDeep)
    (hle : frames ≤ frames' + 4) (rest : List Token) :
    atom (nested frames') (o.word ++ rest) = calls (nested frames' 3) rest o.term rest := by
  have hprogram : program frames o.word = .ok [o.term] := by
    rcases program_below_unlimitedProgram frames o.word with ⟨heq, -⟩ | ⟨-, hdeep⟩
    · rw [heq, o.program_word]
    · exact absurd hdeep h
  rw [program_eq o.closed.ne_nil] at hprogram
  obtain ⟨⟨e, ts⟩, hexpression, -⟩ := exists_of_bind_eq_ok hprogram
  cases frames with
  | zero => cases hexpression
  | succ frames =>
    obtain ⟨⟨e', ts'⟩, hoperation, -⟩ := exists_of_bind_eq_ok hexpression
    obtain ⟨⟨e'', ts''⟩, hatom, -⟩ := exists_of_bind_eq_ok hoperation
    -- what was read with fewer frames is read with more
    have hmore : atom (nested frames') o.word = .ok (e'', ts'') := by
      rw [below_nested, below_nested] at hatom
      rcases atom_below_of_le (show frames - 2 - 1 ≤ frames' by omega) o.word
        with ⟨heq, -⟩ | ⟨-, hdeep⟩
      · rw [← heq, hatom]
      · rw [hatom] at hdeep
        cases hdeep
    rw [← List.append_nil o.word] at hmore
    obtain ⟨f, hf⟩ := o.closed.atom_eq hmore
    -- with nothing behind it, it is read as without a limit
    have halone : atom (nested frames') o.word = .ok (f, []) := by
      rw [← List.append_nil o.word]
      exact hf []
    obtain rfl : f = o.term := by
      rcases atom_below_unlimited frames' o.word with ⟨heq, -⟩ | ⟨-, hdeep⟩
      · rw [halone, o.atom_word] at heq
        exact (Prod.mk.inj (Except.ok.inj heq)).1
      · rw [halone] at hdeep
        cases hdeep
    exact hf rest

end Operand

end Lamlet.Grammar
