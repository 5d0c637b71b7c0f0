import Lamlet.Proofs.Grammar.Reading

/-!
# Greedy reading loses no program

The grammar is ambiguous, and a reader with one token of lookahead always goes on with
the innermost construct that is still open.  A *greedy* form has this reading built in:
only the last operand of an expression may be open to the right, and the form counts the
conditionals at the right end that still wait for an `else`.  Whatever may follow an
expression goes on with a greedy form inside its last open part, so every derivable word
has a greedy form; and greedy forms are read without looking back.

## Main definitions

* `Form`, `Greedy` — greedy forms, with the number of conditionals that wait.
* `Ends` — what may stand after an expression that is read to its end.
* `Chain` — operands with operators between them, as readers see them.

## Main results

* `Greedy.extended`, `Greedy.settled` — going on inside the last open part.
* `Derives.greedy` — derivable words have greedy forms.
* `Greedy.readable` — greedy forms are read to their end.
* `parsesTo_iff_derives` — **a text is read iff its tokens are derivable**, and any other
  is rejected by the grammar.
-/

namespace Lamlet

namespace Grammar

/-! ### Greedy forms -/

/-- The sorts of greedy forms. -/
inductive Form where
  /-- An operand that is closed to the right, with its calls. -/
  | atom
  /-- The last operand of an expression, with the conditionals that wait. -/
  | operand (waiting : Nat)
  /-- An expression, with the conditionals that wait. -/
  | expression (waiting : Nat)
  /-- The first branch of a conditional, with the conditionals that wait inside. -/
  | branch (waiting : Nat)
  /-- Expressions with separators between them, possibly none. -/
  | row (separator : Punctuation)
  /-- One expression or several with separators between them. -/
  | items (separator : Punctuation)

/-- The words that have a greedy form. -/
inductive Greedy : Form → List Token → Prop where
  | grouped {k : Nat} {w : List Token} :
      Greedy (.expression k) w → Greedy .atom (.mark .leftParen :: (w ++ [.mark .rightParen]))
  | block {w : List Token} :
      Greedy (.row .semicolon) w →
      Greedy .atom (.mark .leftBrace :: (w ++ [.mark .rightBrace]))
  | trueWord : Greedy .atom [.keyword .trueWord]
  | falseWord : Greedy .atom [.keyword .falseWord]
  | name (n : String) : Greedy .atom [.name n]
  | number (x : Number) : Greedy .atom [.number x]
  | text (s : String) : Greedy .atom [.text s]
  | called {w args : List Token} :
      Greedy .atom w → Greedy (.row .comma) args →
      Greedy .atom (w ++ .mark .leftParen :: (args ++ [.mark .rightParen]))
  | closed {w : List Token} : Greedy .atom w → Greedy (.operand 0) w
  | oneBranch {j k : Nat} {c b : List Token} :
      Greedy (.expression j) c → Greedy (.branch k) b →
      Greedy (.operand (k + 1)) (.keyword .ifWord :: (c ++ b))
  | twoBranches {j k : Nat} {c b e : List Token} :
      Greedy (.expression j) c → Greedy (.branch 0) b → Greedy (.expression k) e →
      Greedy (.operand k) (.keyword .ifWord :: (c ++ (b ++ .keyword .elseWord :: e)))
  | function {k : Nat} {ps b : List Token} {word : Keyword} :
      word = .lambdaWord ∨ word = .lambdaLetter → Derives .parameters ps →
      Greedy (.expression k) b →
      Greedy (.operand k) (.keyword word :: .mark .leftParen :: (ps ++ .mark .rightParen :: b))
  | last {k : Nat} {w : List Token} : Greedy (.operand k) w → Greedy (.expression k) w
  | joined {k : Nat} {w v : List Token} {symbol : String} {op : Infix} :
      Greedy .atom w → Infix.ofSymbol? symbol = some op → Greedy (.expression k) v →
      Greedy (.expression k) (w ++ .operator symbol :: v)
  | marked {k : Nat} {w : List Token} :
      Greedy (.expression k) w → Greedy (.branch k) (.keyword .thenWord :: w)
  | braced {k : Nat} {w : List Token} :
      Greedy (.expression k) (.mark .leftBrace :: w) →
      Greedy (.branch k) (.mark .leftBrace :: w)
  | emptyRow {s : Punctuation} : Greedy (.row s) []
  | row {s : Punctuation} {w : List Token} : Greedy (.items s) w → Greedy (.row s) w
  | item {s : Punctuation} {k : Nat} {w : List Token} :
      Greedy (.expression k) w → Greedy (.items s) w
  | moreItems {s : Punctuation} {k : Nat} {w v : List Token} :
      Greedy (.expression k) w → Greedy (.items s) v → Greedy (.items s) (w ++ .mark s :: v)

/-! ### Going on inside the last open part -/

/-- A form that goes on with `u`, where `j` more conditionals wait. -/
def Form.Extended (u : List Token) (j : Nat) : Form → List Token → Prop
  | .operand k, w => Greedy (.expression (k + j)) (w ++ u)
  | .expression k, w => Greedy (.expression (k + j)) (w ++ u)
  | .branch k, w => Greedy (.branch (k + j)) (w ++ u)
  | _, _ => True

/-- **What can follow a closed operand can follow any expression**: it goes on with the
innermost part that is open to the right. -/
theorem Greedy.extended {u : List Token} {j : Nat}
    (hu : ∀ {w : List Token}, Greedy .atom w → Greedy (.expression j) (w ++ u))
    {f : Form} {w : List Token} (h : Greedy f w) : f.Extended u j w := by
  induction h with
  | closed hw =>
    rw [Form.Extended, Nat.zero_add]
    exact hu hw
  -- a form that is open to the right goes on in its last part
  | @oneBranch _ k c b hc _ _ ih =>
    rw [Form.Extended, Nat.add_right_comm, List.cons_append, List.append_assoc]
    exact .last (.oneBranch hc ih)
  | twoBranches hc hb _ _ _ ih =>
    rw [Form.Extended, List.cons_append, List.append_assoc, List.append_assoc, List.cons_append]
    exact .last (.twoBranches hc hb ih)
  | function hword hps _ ih =>
    rw [Form.Extended, List.cons_append, List.cons_append, List.append_assoc, List.cons_append]
    exact .last (.function hword hps ih)
  | last _ ih => exact ih
  | joined hw hop _ _ ih =>
    rw [Form.Extended, List.append_assoc, List.cons_append]
    exact .joined hw hop ih
  | marked _ ih => exact .marked ih
  | braced _ ih => exact .braced ih
  | _ => trivial

/-- A form in which some conditional waits goes on with `else` and an expression. -/
def Form.Settled (e : List Token) (j : Nat) : Form → List Token → Prop
  | .operand k, w =>
    ∀ k', k = k' + 1 → Greedy (.expression (k' + j)) (w ++ .keyword .elseWord :: e)
  | .expression k, w =>
    ∀ k', k = k' + 1 → Greedy (.expression (k' + j)) (w ++ .keyword .elseWord :: e)
  | .branch k, w =>
    ∀ k', k = k' + 1 → Greedy (.branch (k' + j)) (w ++ .keyword .elseWord :: e)
  | _, _ => True

/-- **An `else` goes to the innermost conditional that waits for one.** -/
theorem Greedy.settled {e : List Token} {j : Nat} (he : Greedy (.expression j) e) {f : Form}
    {w : List Token} (h : Greedy f w) : f.Settled e j w := by
  induction h with
  | closed hw =>
    intro k' hk
    omega
  | @oneBranch _ k c b hc hb _ ih =>
    intro k' hk
    obtain rfl : k = k' := by omega
    rw [List.cons_append, List.append_assoc]
    cases k with
    | zero =>
      -- nothing waits inside the branch, so the `else` is this conditional's own
      rw [Nat.zero_add]
      exact .last (.twoBranches hc hb he)
    | succ k =>
      rw [Nat.add_right_comm]
      exact .last (.oneBranch hc (ih k rfl))
  | twoBranches hc hb _ _ _ ih =>
    intro k' hk
    rw [List.cons_append, List.append_assoc, List.append_assoc, List.cons_append]
    exact .last (.twoBranches hc hb (ih k' hk))
  | function hword hps _ ih =>
    intro k' hk
    rw [List.cons_append, List.cons_append, List.append_assoc, List.cons_append]
    exact .last (.function hword hps (ih k' hk))
  | last _ ih => exact ih
  | joined hw hop _ _ ih =>
    intro k' hk
    rw [List.append_assoc, List.cons_append]
    exact .joined hw hop (ih k' hk)
  | marked _ ih => exact fun k' hk => .marked (ih k' hk)
  | braced _ ih => exact fun k' hk => .braced (ih k' hk)
  | _ => trivial

/-- Words of a nonterminal have a greedy form. -/
def Nonterminal.HasGreedy : Nonterminal → List Token → Prop
  | .program, w =>
    w = [] ∨ ∃ v, Greedy (.items .semicolon) v ∧ (w = v ∨ w = v ++ [.mark .semicolon])
  | .expression, w => ∃ k, Greedy (.expression k) w
  | .atom, w => ∃ k, Greedy (.expression k) w
  | .primary, w => ∃ k, Greedy (.expression k) w
  | .branch, w => ∃ k, Greedy (.branch k) w
  | .row s, w => Greedy (.row s) w
  | .items s, w => Greedy (.items s) w
  | .parameters, _ => True
  | .names, _ => True

/-- **Derivable words have greedy forms.** -/
theorem Derives.greedy {n : Nonterminal} {w : List Token} (h : Derives n w) :
    n.HasGreedy w := by
  induction h with
  | noProgram => exact .inl rfl
  | program _ ih => exact .inr ⟨_, ih, .inl rfl⟩
  | closedProgram _ ih => exact .inr ⟨_, ih, .inr rfl⟩
  | operand _ ih => exact ih
  | joined _ hop _ ihw ihv =>
    -- the operator goes to the last operand that is closed, wherever that stands
    obtain ⟨k, hw⟩ := ihw
    obtain ⟨j, hv⟩ := ihv
    exact ⟨k + j, Greedy.extended (fun ha => .joined ha hop hv) hw⟩
  | uncalled _ ih => exact ih
  | called _ _ ihw ihargs =>
    obtain ⟨k, hw⟩ := ihw
    exact ⟨k + 0, Greedy.extended (fun ha => .last (.closed (.called ha ihargs))) hw⟩
  | grouped _ ih =>
    obtain ⟨k, hw⟩ := ih
    exact ⟨0, .last (.closed (.grouped hw))⟩
  | block _ ih => exact ⟨0, .last (.closed (.block ih))⟩
  | oneBranch _ _ ihc ihb =>
    obtain ⟨j, hc⟩ := ihc
    obtain ⟨k, hb⟩ := ihb
    exact ⟨k + 1, .last (.oneBranch hc hb)⟩
  | twoBranches _ _ _ ihc ihb ihe =>
    obtain ⟨j, hc⟩ := ihc
    obtain ⟨k, hb⟩ := ihb
    obtain ⟨i, he⟩ := ihe
    -- the conditional without its `else` waits, but others inside it may come first
    have := Greedy.settled he (.last (.oneBranch hc hb)) k rfl
    exact ⟨k + i, by simpa using this⟩
  | trueWord => exact ⟨0, .last (.closed .trueWord)⟩
  | falseWord => exact ⟨0, .last (.closed .falseWord)⟩
  | function hword hps _ _ ih =>
    obtain ⟨k, hb⟩ := ih
    exact ⟨k, .last (.function hword hps hb)⟩
  | name n => exact ⟨0, .last (.closed (.name n))⟩
  | number x => exact ⟨0, .last (.closed (.number x))⟩
  | text s => exact ⟨0, .last (.closed (.text s))⟩
  | marked _ ih =>
    obtain ⟨k, hw⟩ := ih
    exact ⟨k, .marked hw⟩
  | braced _ ih =>
    obtain ⟨k, hw⟩ := ih
    exact ⟨k, .braced hw⟩
  | emptyRow => exact .emptyRow
  | row _ ih => exact .row ih
  | item _ ih =>
    obtain ⟨k, hw⟩ := ih
    exact .item hw
  | moreItems _ _ ihw ihv =>
    obtain ⟨k, hw⟩ := ihw
    exact .moreItems hw ihv
  | _ => trivial

/-! ### Chains of operands -/

/-- Operands with operators between them, as a reader sees them before `rest`: the last
one is read up to `rest`, and the others up to the calls that may follow them. -/
inductive Chain (rest : List Token) : List Token → Prop where
  | last {w : List Token} {e : Term} :
      atom unlimited (w ++ rest) = .ok (e, rest) → Chain rest w
  | more {w v : List Token} {symbol : String} {op : Infix} :
      (∀ ts, ∃ e, atom unlimited (w ++ ts) = calls unlimited ts e ts) →
      Infix.ofSymbol? symbol = some op → Chain rest v → Chain rest (w ++ .operator symbol :: v)

/-- What a climb leaves: everything is read, or an operator that binds too little comes
next, with the rest of the chain after it. -/
def Left (rest : List Token) (threshold bound : Nat) (ts : List Token) : Prop :=
  ts = rest ∨ ∃ symbol op v, Infix.ofSymbol? symbol = some op ∧ op.precedence ≤ threshold
    ∧ Chain rest v ∧ v.length ≤ bound ∧ ts = .operator symbol :: (v ++ rest)

/-- The operand before an operator is read up to the operator. -/
theorem atom_before_operator {w : List Token} (symbol : String) (v rest : List Token)
    (hw : ∀ ts, ∃ e, atom unlimited (w ++ ts) = calls unlimited ts e ts) :
    ∃ e, atom unlimited (w ++ .operator symbol :: v ++ rest)
      = .ok (e, .operator symbol :: (v ++ rest)) := by
  obtain ⟨e, he⟩ := hw (.operator symbol :: (v ++ rest))
  refine ⟨e, ?_⟩
  rw [List.append_assoc, List.cons_append, he, calls_of_not_opens rfl]

/-- A climb reads a chain as far as its operators bind tightly enough. -/
theorem climb_of_chain {rest : List Token} (hrest : Stops rest) (bound : Nat) :
    ∀ {v : List Token}, v.length ≤ bound → Chain rest v →
      ∀ {symbol : String} {op : Infix}, Infix.ofSymbol? symbol = some op →
      ∀ (threshold : Nat) (left : Term),
        ∃ e ts, climb unlimited (.operator symbol :: (v ++ rest)) threshold left
            (.operator symbol :: (v ++ rest)) = .ok (e, ts) ∧ Left rest threshold bound ts := by
  -- a climb inside a climb and the climb after it both see a shorter chain
  induction bound with
  | zero =>
    intro v hv hchain
    cases hchain with
    | last h =>
      obtain rfl := List.length_eq_zero_iff.1 (Nat.le_zero.1 hv)
      obtain ⟨w, hw, hsplit⟩ := consumes_atom (fun _ => consumes_unlimited) h
      have hlen := congrArg List.length hsplit
      rw [List.nil_append, List.length_append] at hlen
      have hne : w.length ≠ 0 := fun hzero => hw.ne_nil (by simp) (List.length_eq_zero_iff.1 hzero)
      omega
    | more _ _ _ => simp at hv
  | succ bound ih =>
    intro v hv hchain symbol op hop threshold left
    rw [climb_unlimited, nextInfix?_operator hop]
    by_cases hlt : threshold < op.precedence
    · rw [if_pos hlt]
      cases hchain with
      | @last w right h =>
        refine ⟨join op left right, rest, ?_, .inl rfl⟩
        simp only [h]
        show (climb unlimited rest op.precedence right rest >>= _) = _
        rw [climb_of_stops hrest]
        exact climb_of_stops hrest _ _
      | @more w v' symbol' op' hw hop' hv' =>
        obtain ⟨right, hright⟩ := atom_before_operator symbol' v' rest hw
        have hlen : v'.length ≤ bound := by
          rw [List.length_append, List.length_cons] at hv
          omega
        obtain ⟨right', ts', hright', hleft⟩ := ih hlen hv' hop' op.precedence right
        simp only [hright]
        show ∃ e ts, (climb unlimited _ op.precedence right _ >>= _) = _ ∧ _
        rw [hright']
        show ∃ e ts, climb unlimited ts' threshold (join op left right') ts' = _ ∧ _
        -- the inner climb came to the end, or to an operator that this one goes on with
        rcases hleft with rfl | ⟨symbol₂, op₂, v₂, hop₂, -, hv₂, hlen₂, rfl⟩
        · exact ⟨_, _, climb_of_stops hrest _ _, .inl rfl⟩
        · obtain ⟨e, ts, he, hts⟩ := ih hlen₂ hv₂ hop₂ threshold (join op left right')
          refine ⟨e, ts, he, ?_⟩
          rcases hts with rfl | ⟨symbol₃, op₃, v₃, hop₃, hle₃, hv₃, hlen₃, rfl⟩
          · exact .inl rfl
          · exact .inr ⟨symbol₃, op₃, v₃, hop₃, hle₃, hv₃, by omega, rfl⟩
    · rw [if_neg hlt]
      exact ⟨left, _, rfl, .inr ⟨symbol, op, v, hop, by omega, hchain, hv, rfl⟩⟩

/-- **A chain before a stop is read to its end.**  A chain is a row of operands with operators
between them; how the climb groups them does not matter here, since it goes on for as long as an
operator follows. -/
theorem unlimited_of_chain {w rest : List Token} (hrest : Stops rest) (h : Chain rest w) :
    ∃ e, unlimited (w ++ rest) = .ok (e, rest) := by
  cases h with
  | @last _ e h => exact ⟨e, unlimited_of_atom h hrest⟩
  | @more w v symbol op hw hop hv =>
    obtain ⟨left, hleft⟩ := atom_before_operator symbol v rest hw
    obtain ⟨e, ts, he, hts⟩ := climb_of_chain hrest v.length (Nat.le_refl _) hv hop 0 left
    rw [unlimited_eq_of_atom hleft, he]
    rcases hts with rfl | ⟨symbol', op', v', hop', hle, -⟩
    · exact ⟨e, calls_of_not_opens hrest.noCall e⟩
    · -- at the lowest threshold no operator binds too little
      have := precedence_pos hop'
      omega

/-! ### Greedy forms are read -/

/-- What may stand after an expression in which `k` conditionals wait: no call, no
operator, and no `else` that would go to one of them. -/
structure Ends (k : Nat) (rest : List Token) : Prop extends Stops rest where
  /-- An `else` only if no conditional waits for it. -/
  noElse : k ≠ 0 → ∀ ts, rest ≠ .keyword .elseWord :: ts

theorem ends_mark (m : Punctuation) (h : m ≠ .leftParen) (k : Nat) (ts : List Token) :
    Ends k (.mark m :: ts) :=
  ⟨stops_mark h ts, by simp⟩

/-- The forms of each sort are read to their end. -/
def Form.Readable : Form → List Token → Prop
  | .atom, w => ∀ rest, ∃ e, Grammar.atom unlimited (w ++ rest) = calls unlimited rest e rest
  | .operand k, w =>
    ∀ rest, Ends k rest → ∃ e, Grammar.atom unlimited (w ++ rest) = .ok (e, rest)
  | .expression k, w => ∀ rest, Ends k rest → Chain rest w
  | .branch k, w =>
    (∀ j rest, Ends j (w ++ rest)) ∧ ∀ rest, Ends k rest →
      ∃ ts e, expectBranch (w ++ rest) = .ok ts ∧ unlimited ts = .ok (e, rest)
  | .row s, w =>
    s = .comma ∨ s = .semicolon → ∀ start close rest, close = .rightParen ∨ close = .rightBrace →
      ∃ es, delimited start close s unlimited (.mark start :: (w ++ .mark close :: rest))
        = .ok (es, rest)
  | .items s, w =>
    s = .comma ∨ s = .semicolon → ∀ close rest, close = .rightParen ∨ close = .rightBrace →
      ∃ es, ReadsItems close s (w ++ .mark close :: rest) es rest

theorem joinTokens_of_derives_names {w : List Token} (h : Derives .names w) :
    ∃ n ns, w = joinTokens .comma ((n :: ns).map fun n => [.name n]) := by
  generalize hsort : Nonterminal.names = sort at h
  induction h with
  | oneName n => exact ⟨n, [], rfl⟩
  | moreNames n _ ih =>
    obtain ⟨m, ns, rfl⟩ := ih hsort
    exact ⟨n, m :: ns, rfl⟩
  | _ => cases hsort

theorem joinTokens_of_derives_parameters {w : List Token} (h : Derives .parameters w) :
    ∃ ps : List String, w = joinTokens .comma (ps.map fun n => [.name n]) := by
  cases h with
  | noParameters => exact ⟨[], rfl⟩
  | parameters h =>
    obtain ⟨n, ns, rfl⟩ := joinTokens_of_derives_names h
    exact ⟨n :: ns, rfl⟩

/-- An expression is read before anything that ends it. -/
theorem Form.Readable.unlimited {k : Nat} {w rest : List Token}
    (h : (Form.expression k).Readable w) (hrest : Ends k rest) :
    ∃ e, Grammar.unlimited (w ++ rest) = .ok (e, rest) :=
  unlimited_of_chain hrest.toStops (h rest hrest)

/-- **Greedy forms are read to their end.**  The induction is on the derivation, with a statement
of its own for each sort of form.  A closed operand may have anything behind it.  An
expression needs something that ends it, and an `else` does so only if no first branch is open at
its end; so the reader never gives an `else` to another conditional than the derivation does. -/
theorem Greedy.readable {f : Form} {w : List Token} (h : Greedy f w) : f.Readable w := by
  induction h with
  | grouped _ ih =>
    intro rest
    obtain ⟨e, he⟩ := ih.unlimited (ends_mark .rightParen (by simp) _ rest)
    rw [List.cons_append, List.append_assoc]
    exact ⟨e, atom_eq (primary_grouped he)⟩
  | block _ ih =>
    intro rest
    obtain ⟨es, hes⟩ := ih (.inr rfl) .leftBrace .rightBrace rest (.inr rfl)
    rw [List.cons_append, List.append_assoc]
    exact ⟨blockOf es, atom_eq (primary_block hes)⟩
  | trueWord => exact fun rest => ⟨.boolean true, rfl⟩
  | falseWord => exact fun rest => ⟨.boolean false, rfl⟩
  | name n => exact fun rest => ⟨.var n, rfl⟩
  | number x => exact fun rest => ⟨.number x, rfl⟩
  | text s => exact fun rest => ⟨.text s, rfl⟩
  | @called w args _ _ ihw ihargs =>
    intro rest
    obtain ⟨callee, hcallee⟩ := ihw (.mark .leftParen :: (args ++ .mark .rightParen :: rest))
    obtain ⟨es, hes⟩ := ihargs (.inl rfl) .leftParen .rightParen rest (.inl rfl)
    refine ⟨.call callee es, ?_⟩
    rw [List.append_assoc, List.cons_append, List.append_assoc, List.singleton_append, hcallee]
    exact calls_of_row callee hes
  | closed _ ih =>
    intro rest hrest
    obtain ⟨e, he⟩ := ih rest
    exact ⟨e, by rw [he, calls_of_not_opens hrest.noCall]⟩
  | oneBranch _ _ ihc ihb =>
    intro rest hrest
    obtain ⟨c, hc⟩ := ihc.unlimited (ihb.1 _ rest)
    obtain ⟨ts, t, hthen, ht⟩ := ihb.2 rest ⟨hrest.toStops, fun _ => hrest.noElse (by simp)⟩
    refine ⟨.conditional c t .missing, ?_⟩
    rw [List.cons_append, List.append_assoc,
      atom_eq (conditional_of_stop hc hthen ht (hrest.noElse (by simp))),
      calls_of_not_opens hrest.noCall]
  | @twoBranches _ k c b e _ _ _ ihc ihb ihe =>
    intro rest hrest
    -- no conditional waits inside the first branch, so the `else` ends it
    have helse : Ends 0 (.keyword .elseWord :: (e ++ rest)) := ⟨stops_keyword _ _, by simp⟩
    obtain ⟨c, hc⟩ := ihc.unlimited (ihb.1 _ (.keyword .elseWord :: (e ++ rest)))
    obtain ⟨ts, t, hthen, ht⟩ := ihb.2 _ helse
    obtain ⟨e', he⟩ := ihe.unlimited hrest
    refine ⟨.conditional c t e', ?_⟩
    rw [List.cons_append, List.append_assoc, List.append_assoc, List.cons_append,
      atom_eq (conditional_of_else hc hthen ht he), calls_of_not_opens hrest.noCall]
  | function hword hps _ ih =>
    intro rest hrest
    obtain ⟨ps, rfl⟩ := joinTokens_of_derives_parameters hps
    obtain ⟨b, hb⟩ := ih.unlimited hrest
    refine ⟨.lambda ps b, ?_⟩
    rw [List.cons_append, List.cons_append, List.append_assoc, List.cons_append,
      atom_eq (primary_function hword ps hb), calls_of_not_opens hrest.noCall]
  | last _ ih =>
    intro rest hrest
    obtain ⟨e, he⟩ := ih rest hrest
    exact .last he
  | joined _ hop _ ihw ihv => exact fun rest hrest => .more ihw hop (ihv rest hrest)
  | @marked k w _ ih =>
    refine ⟨fun j rest => ⟨stops_keyword _ _, by simp⟩, fun rest hrest => ?_⟩
    obtain ⟨e, he⟩ := ih.unlimited hrest
    exact ⟨w ++ rest, e, by rw [List.cons_append]; rfl, he⟩
  | @braced k w _ ih =>
    refine ⟨fun j rest => ends_mark .leftBrace (by simp) j _, fun rest hrest => ?_⟩
    obtain ⟨e, he⟩ := ih.unlimited hrest
    exact ⟨.mark .leftBrace :: w ++ rest, e, by rw [List.cons_append]; rfl, he⟩
  | emptyRow => exact fun _ start close rest _ => ⟨[], delimited_nil start close _ unlimited rest⟩
  | row _ ih =>
    intro hs start close rest hclose
    obtain ⟨es, hes⟩ := ih hs close rest hclose
    exact ⟨es, delimited_of_readsItems start hclose hes⟩
  | item _ ih =>
    intro _ close rest hclose
    obtain ⟨e, he⟩ := ih.unlimited
      (ends_mark close (by rcases hclose with rfl | rfl <;> simp) _ rest)
    exact ⟨[e], readsItems_one _ he⟩
  | @moreItems s k w v _ _ ihw ihv =>
    intro hs close rest hclose
    obtain ⟨es, hes⟩ := ihv hs close rest hclose
    obtain ⟨e, he⟩ := ihw.unlimited
      (ends_mark s (by rcases hs with rfl | rfl <;> simp) _ (v ++ .mark close :: rest))
    refine ⟨e :: es, ?_⟩
    rw [List.append_assoc, List.cons_append]
    refine readsItems_more ?_ he hes
    rcases hs with rfl | rfl <;> rcases hclose with rfl | rfl <;> simp

/-! ### Programs -/

theorem unlimitedProgram_of_items {w : List Token} (h : Greedy (.items .semicolon) w)
    {ts : List Token} (hts : ts = [] ∨ ts = [.mark .semicolon]) :
    ∃ es, unlimitedProgram (w ++ ts) = .ok es := by
  generalize hsort : Form.items .semicolon = sort at h
  induction h with
  | @item s k w hw _ =>
    -- an item ends before a semicolon as it does at the end
    have hends : Ends k ts := by
      rcases hts with rfl | rfl
      · exact ⟨stops_nil, by simp⟩
      · exact ends_mark .semicolon (by simp) k []
    obtain ⟨e, he⟩ := hw.readable.unlimited hends
    rcases hts with rfl | rfl
    · exact ⟨[e], unlimitedProgram_of_last he⟩
    · exact ⟨[e], unlimitedProgram_of_item he⟩
  | @moreItems s k w v hw hv _ ih =>
    cases hsort
    obtain ⟨es, hes⟩ := ih rfl
    obtain ⟨e, he⟩ := hw.readable.unlimited (ends_mark .semicolon (by simp) k (v ++ ts))
    rw [List.append_assoc, List.cons_append, unlimitedProgram_of_item he, hes]
    exact ⟨e :: es, rfl⟩
  | _ => cases hsort

/-- **Exactly the derivable token sequences are read as programs.**  What is read was derived on
the way.  The other way round, a derivation need not be the one that the reader finds, since the
grammar is ambiguous; but every derivable sequence has a greedy form as well, and that is the one
that is read. -/
theorem unlimitedProgram_ok_iff {ts : List Token} :
    (∃ es, unlimitedProgram ts = .ok es) ↔ Derives .program ts := by
  constructor
  · rintro ⟨es, hes⟩
    exact derives_of_program hes
  · intro h
    rcases h.greedy with rfl | ⟨v, hv, rfl | rfl⟩
    · exact ⟨[], rfl⟩
    · simpa using unlimitedProgram_of_items hv (.inl rfl)
    · exact unlimitedProgram_of_items hv (.inr rfl)

end Grammar

/-! ### Whole texts -/

namespace Lexed

/-- The grammar rejects tokens that are not derivable. -/
theorem unlimitedParse_of_not_derives {l : Lexed} (hlex : l.trouble = none)
    (h : ¬ Grammar.Derives .program (l.tokens.map (·.token))) :
    ∃ wanted found place,
      l.unlimitedParse = .error (.fault (.atPlace (.syntactic wanted found) place) place) := by
  have hfault : l.fault? = none := by rw [fault?, hlex]; rfl
  cases hread : Grammar.unlimitedProgram (l.tokens.map (·.token)) with
  | ok es => exact absurd (Grammar.unlimitedProgram_ok_iff.1 ⟨es, hread⟩) h
  | error reject =>
    cases reject with
    | tooDeep => exact absurd hread (Grammar.unlimitedProgram_ne_tooDeep _)
    | unwanted wanted rest =>
      refine ⟨wanted, rest.head?, l.placeOf rest, ?_⟩
      rw [Grammar.unlimitedProgram] at hread
      -- no trouble stopped the tokens, so what the reader wanted is the fault
      rw [unlimitedParse, parse, hread]
      simp only [rejection, hfault]

end Lexed

/-- **A text is read iff its tokens are derivable**, depth limit aside, and any other text
is rejected with a fault of the grammar. -/
theorem parsesTo_iff_derives (source : String) (hlex : (lex source).trouble = none) :
    ((∃ es, ParsesTo source (.ok es)) ↔
      Grammar.Derives .program ((lex source).tokens.map (·.token))) ∧
    (¬ Grammar.Derives .program ((lex source).tokens.map (·.token)) →
      ∃ fault place, ParsesTo source (.error (.fault fault place))
        ∧ fault.cause.kind = .syntactic) := by
  -- without a limit the text has an outcome, and no text has two
  have houtcome := parsesTo_unlimited source
  refine ⟨⟨?_, fun hderives => ?_⟩, fun hderives => ?_⟩
  · rintro ⟨es, hes⟩
    refine Classical.byContradiction fun hderives => ?_
    obtain ⟨wanted, found, place, hreject⟩ :=
      Lexed.unlimitedParse_of_not_derives hlex hderives
    rw [hreject] at houtcome
    cases hes.unique houtcome
  · obtain ⟨es, hes⟩ := Grammar.unlimitedProgram_ok_iff.2 hderives
    rw [Lexed.unlimitedParse_of_program hlex hes] at houtcome
    exact ⟨es, houtcome⟩
  · obtain ⟨wanted, found, place, hreject⟩ :=
      Lexed.unlimitedParse_of_not_derives hlex hderives
    rw [hreject] at houtcome
    exact ⟨_, place, houtcome, rfl⟩

/-- A text with an `else` that two conditionals could take, a `then` left out, and an
operator and calls after forms that are open to the right. -/
theorem parsesTo_iff_derives_dangling :
    (lex "if a then if b {c} else λ(x) x = 1; d(2)(3);").trouble = none ∧
    ((∃ es, ParsesTo "if a then if b {c} else λ(x) x = 1; d(2)(3);" (.ok es)) ↔
      Grammar.Derives .program
        ((lex "if a then if b {c} else λ(x) x = 1; d(2)(3);").tokens.map (·.token))) ∧
    (¬ Grammar.Derives .program
        ((lex "if a then if b {c} else λ(x) x = 1; d(2)(3);").tokens.map (·.token)) →
      ∃ fault place,
        ParsesTo "if a then if b {c} else λ(x) x = 1; d(2)(3);" (.error (.fault fault place))
          ∧ fault.cause.kind = .syntactic) := by
  have hlex : (lex "if a then if b {c} else λ(x) x = 1; d(2)(3);").trouble = none := by
    decide +kernel
  exact ⟨hlex, parsesTo_iff_derives _ hlex⟩

end Lamlet
