import Lamlet.Proofs.Term.Spelling
import Lamlet.Proofs.Grammar.Greedy

/-!
# Written terms are read back

A term in the brackets that its text gives it is an operand, whatever follows; without
them it is an expression, before anything that ends one.  So the text of a well-formed
term is a program of one expression, and this expression is the term.

## Main definitions

* `Term.ReadsAs` — the tokens of a term are read as a given term.

## Main results

* `Term.WellFormed.reads` — the tokens of a well-formed term are read as the same term.
* `Term.parsesTo_render` — **the text of a well-formed term is read back as this term.**
-/

namespace Lamlet

open Text Grammar

namespace Term

/-! ### Operands and expressions -/

/-- The tokens of a term are read as the term `u`. -/
structure ReadsAs (t u : Term) : Prop where
  /-- In brackets, up to the calls that follow. -/
  operand : ∀ rest, atom unlimited (groupTokens t t.tokens ++ rest) = calls unlimited rest u rest
  /-- Without brackets, before anything that ends an expression. -/
  expression : ∀ rest, Ends 1 rest → unlimited (t.tokens ++ rest) = .ok (u, rest)

namespace ReadsAs

variable {t u : Term}

/-- A term without brackets of its own is read as an operand. -/
theorem of_operand (hatom : t.isAtom = true)
    (h : ∀ rest, atom unlimited (t.tokens ++ rest) = calls unlimited rest u rest) :
    ReadsAs t u := by
  refine ⟨fun rest => ?_, fun rest hrest => ?_⟩
  · rw [groupTokens, if_pos hatom]
    exact h rest
  · refine unlimited_of_atom ?_ hrest.toStops
    rw [h rest, calls_of_not_opens hrest.noCall]

/-- A term in brackets is read as the expression between them. -/
theorem of_expression (hatom : t.isAtom = false)
    (h : ∀ rest, Ends 1 rest → unlimited (t.tokens ++ rest) = .ok (u, rest)) :
    ReadsAs t u := by
  refine ⟨fun rest => ?_, h⟩
  rw [groupTokens, hatom, if_neg (by simp), List.cons_append, List.append_assoc]
  exact atom_eq (primary_grouped (h _ (ends_mark .rightParen (by simp) 1 rest)))

/-- The same for terms that are operands between brackets of their own, or are open to
the right. -/
theorem of_primary (hatom : t.isAtom = false)
    (h : ∀ rest, Ends 1 rest → primary unlimited (t.tokens ++ rest) = .ok (u, rest)) :
    ReadsAs t u := by
  refine of_expression hatom fun rest hrest => unlimited_of_atom ?_ hrest.toStops
  rw [atom_eq (h rest hrest), calls_of_not_opens hrest.noCall]

/-- Where no call follows, the operand is read to its end. -/
theorem atom_eq_ok (h : ReadsAs t u) {rest : List Token}
    (hrest : opens .leftParen rest = false) :
    atom unlimited (groupTokens t t.tokens ++ rest) = .ok (u, rest) := by
  rw [h.operand rest, calls_of_not_opens hrest]

/-- An operand is an expression as well. -/
theorem unlimited_eq_ok (h : ReadsAs t u) {rest : List Token} (hrest : Stops rest) :
    unlimited (groupTokens t t.tokens ++ rest) = .ok (u, rest) :=
  unlimited_of_atom (h.atom_eq_ok hrest.noCall) hrest

/-- Two operands with an operator between them. -/
theorem joined {v x : Term} {symbol : String} {op : Infix} (hop : Infix.ofSymbol? symbol = some op)
    (ht : ReadsAs t u) (hv : ReadsAs v x) {rest : List Token} (hrest : Stops rest) :
    unlimited ((groupTokens t t.tokens ++ .operator symbol :: groupTokens v v.tokens) ++ rest)
      = .ok (join op u x, rest) := by
  rw [List.append_assoc, List.cons_append]
  exact unlimited_of_operands hop (ht.atom_eq_ok rfl) (hv.atom_eq_ok hrest.noCall) hrest

end ReadsAs

/-! ### Rows -/

/-- Terms that are read as the same terms make a row that is. -/
theorem reads_row {close separator : Punctuation} (hsep : separator ≠ .leftParen)
    (hclose : close ≠ .leftParen) (hne : separator ≠ close) (t : Term) (ts : List Term)
    (h : ∀ u ∈ t :: ts, ∃ u', ReadsAs u u' ∧ u.same u' = true) :
    ∃ us, sameList (t :: ts) us = true ∧ ∀ rest,
      ReadsItems close separator
        (joinTokens separator (tokensEach (t :: ts)) ++ .mark close :: rest) us rest := by
  induction ts generalizing t with
  | nil =>
    obtain ⟨u, hu, hsame⟩ := h t (by simp)
    refine ⟨[u], by simp [sameList, hsame], fun rest => ?_⟩
    -- the last item ends at the mark that closes the row, and any other at a separator
    exact readsItems_one separator (hu.expression _ (ends_mark close hclose 1 rest))
  | cons t' ts ih =>
    obtain ⟨u, hu, hsame⟩ := h t (by simp)
    obtain ⟨us, hsames, hus⟩ := ih t' fun v hv => h v (by simp [hv])
    refine ⟨u :: us, by rw [sameList, hsame, hsames]; rfl, fun rest => ?_⟩
    have htokens : joinTokens separator (tokensEach (t :: t' :: ts))
        = t.tokens ++ .mark separator :: joinTokens separator (tokensEach (t' :: ts)) := by
      simp only [tokensEach, joinTokens]
    rw [htokens, List.append_assoc, List.cons_append]
    exact readsItems_more hne (hu.expression _ (ends_mark separator hsep 1 _)) (hus rest)

theorem reads_delimited (start close separator : Punctuation) (hsep : separator ≠ .leftParen)
    (hne : separator ≠ close) (hclose : close = .rightParen ∨ close = .rightBrace)
    {ts : List Term} (h : ∀ u ∈ ts, ∃ u', ReadsAs u u' ∧ u.same u' = true) :
    ∃ us, sameList ts us = true ∧ ∀ rest,
      delimited start close separator unlimited
        (.mark start :: (joinTokens separator (tokensEach ts) ++ .mark close :: rest))
        = .ok (us, rest) := by
  cases ts with
  | nil => exact ⟨[], by simp [sameList], delimited_nil start close separator unlimited⟩
  | cons t ts =>
    have hparen : close ≠ .leftParen := by rcases hclose with rfl | rfl <;> simp
    obtain ⟨us, hsame, hus⟩ := reads_row hsep hparen hne t ts h
    exact ⟨us, hsame, fun rest => delimited_of_readsItems start hclose (hus rest)⟩

theorem length_of_sameList {ts us : List Term} (h : sameList ts us = true) :
    us.length = ts.length := by
  induction ts generalizing us with
  | nil =>
    cases us with
    | nil => rfl
    | cons u us => simp [sameList] at h
  | cons t ts ih =>
    cases us with
    | nil => simp [sameList] at h
    | cons u us =>
      simp only [sameList, Bool.and_eq_true] at h
      rw [List.length_cons, List.length_cons, ih h.2]

/-! ### Well-formed terms -/

theorem reads_number {x : Number} (hfinite : x.isFinite = true)
    (hle : Number.le (.finite false .zero) x = true) :
    ∃ u, ReadsAs (number x) u ∧ (number x).same u = true := by
  cases x with
  | nan => cases hfinite
  | infinity sign => cases hfinite
  | finite sign a =>
    -- a zero is read back without its sign, which does not count in the comparison
    refine ⟨number (.finite false a), .of_operand rfl fun rest => ?_, ?_⟩
    · rw [tokens]
      rfl
    · rw [same]
      cases sign with
      | false => simp [Number.eqv, Number.rank?]
      | true =>
        simp [Number.eqv, Number.rank?, Number.signedUnits, units_eq_zero_of_le hle]

/-- An operator with a meaning joins two operands to a term with the same symbol. -/
theorem infix_of_symbol {op : Operator} (h : (Operator.ofSymbol? op.symbol).isSome = true) :
    ∃ op', Infix.ofSymbol? op.symbol = some (.operator op') ∧ op.symbol = op'.symbol := by
  obtain ⟨op', hop'⟩ := Option.isSome_iff_exists.1 h
  have hsymbol := Operator.symbol_of_ofSymbol? hop'
  have hne : op.symbol ≠ "=" := by
    rw [← hsymbol]
    have hmem := Operator.mem_known_of_ofSymbol? hop'
    revert hmem
    cases op' <;> simp [Operator.known, Operator.symbol]
  refine ⟨op', ?_, hsymbol.symm⟩
  rw [Infix.ofSymbol?, if_neg hne, hop']
  rfl

theorem blockOf_of_two_le {es : List Term} (h : 2 ≤ es.length) : blockOf es = .block es := by
  match es, h with
  | e :: e' :: es, _ => rfl

/-- The `then` before a branch is passed over. -/
theorem expectBranch_then (ts : List Token) :
    expectBranch (.keyword .thenWord :: ts) = .ok ts := rfl

/-- **The tokens of a well-formed term are read as the same term.**  The term that is read need
not be identical, as a zero may have lost its sign.  The induction carries both ways in which a
part can stand: in brackets as an operand, and without them before something that ends an
expression. -/
theorem WellFormed.reads {t : Term} (h : t.WellFormed) :
    ∃ u, ReadsAs t u ∧ t.same u = true := by
  induction h with
  | number hfinite hle => exact reads_number hfinite hle
  | text s =>
    refine ⟨.text s, .of_operand rfl fun rest => ?_, by simp [same]⟩
    rw [tokens]
    rfl
  | boolean b =>
    refine ⟨.boolean b, .of_operand rfl fun rest => ?_, by simp [same]⟩
    rw [tokens]
    cases b with
    | false => rfl
    | true => rfl
  | @var name _ =>
    refine ⟨.var name, .of_operand rfl fun rest => ?_, by simp [same]⟩
    rw [tokens]
    rfl
  | assign _ _ iht ihv =>
    obtain ⟨t', ht, hsamet⟩ := iht
    obtain ⟨v', hv, hsamev⟩ := ihv
    have hsign : Infix.ofSymbol? "=" = some .assign := rfl
    refine ⟨.assign t' v', .of_expression rfl fun rest hrest => ?_, ?_⟩
    · rw [tokens]
      exact ht.joined hsign hv hrest.toStops
    · rw [same, hsamet, hsamev]
      rfl
  | binary hop _ _ ihl ihr =>
    obtain ⟨l, hl, hsamel⟩ := ihl
    obtain ⟨r, hr, hsamer⟩ := ihr
    obtain ⟨op', hinfix, hsymbol⟩ := infix_of_symbol hop
    refine ⟨.binary op' l r, .of_expression rfl fun rest hrest => ?_, ?_⟩
    · rw [tokens]
      exact hl.joined hinfix hr hrest.toStops
    · rw [same, hsamel, hsamer, hsymbol]
      simp
  | oneBranch _ _ ihc iht =>
    obtain ⟨c, hc, hsamec⟩ := ihc
    obtain ⟨t, ht, hsamet⟩ := iht
    refine ⟨.conditional c t .missing, .of_primary rfl fun rest hrest => ?_, ?_⟩
    · have hread := conditional_of_stop (hc.unlimited_eq_ok (stops_keyword .thenWord _))
        (expectBranch_then _) (ht.unlimited_eq_ok hrest.toStops) (hrest.noElse (by simp))
      simpa [tokens, Term.isPresent] using hread
    · simp [same, hsamec, hsamet]
  | twoBranches _ _ halt ihc iht ihe =>
    obtain ⟨c, hc, hsamec⟩ := ihc
    obtain ⟨t, ht, hsamet⟩ := iht
    obtain ⟨e, he, hsamee⟩ := ihe
    refine ⟨.conditional c t e, .of_primary rfl fun rest hrest => ?_, ?_⟩
    · have hread := conditional_of_else (hc.unlimited_eq_ok (stops_keyword .thenWord _))
        (expectBranch_then _) (ht.unlimited_eq_ok (stops_keyword .elseWord _))
        (he.unlimited_eq_ok hrest.toStops)
      simpa [tokens, halt.isPresent] using hread
    · simp [same, hsamec, hsamet, hsamee]
  | @lambda ps body _ _ ih =>
    obtain ⟨b, hb, hsame⟩ := ih
    refine ⟨.lambda ps b, .of_primary rfl fun rest hrest => ?_, ?_⟩
    · have hread := primary_function (.inl rfl) ps (hb.unlimited_eq_ok hrest.toStops)
      simpa [tokens] using hread
    · simp [same, hsame]
  | call _ _ ihf ihas =>
    -- the callee is an operand with calls after it, and this is the first of them
    obtain ⟨f, hf, hsamef⟩ := ihf
    obtain ⟨as, hsameas, has⟩ :=
      reads_delimited .leftParen .rightParen .comma (by simp) (by simp) (.inl rfl) ihas
    refine ⟨.call f as, .of_operand rfl fun rest => ?_, ?_⟩
    · rw [tokens, List.append_assoc, List.cons_append, List.append_assoc, List.singleton_append,
        hf.operand]
      exact calls_of_row f (has rest)
    · rw [same, hsamef, hsameas]
      rfl
  | @block body hlen _ ih =>
    obtain ⟨es, hsame, hes⟩ :=
      reads_delimited .leftBrace .rightBrace .semicolon (by simp) (by simp) (.inr rfl) ih
    -- a block of one expression would be read as the expression alone
    have hblock : blockOf es = .block es := blockOf_of_two_le (length_of_sameList hsame ▸ hlen)
    refine ⟨.block es, .of_primary rfl fun rest hrest => ?_, ?_⟩
    · rw [tokens, List.cons_append, List.append_assoc, ← hblock]
      exact primary_block (hes rest)
    · rw [same, hsame]

/-- **The text of a well-formed term is read back as this term**, with numbers compared by
value: it is a program of one expression, depth limit aside. -/
theorem parsesTo_render {t : Term} (h : t.WellFormed) :
    ∃ s u, t.render = .ok s ∧ ParsesTo s (.ok [u]) ∧ t.same u = true := by
  -- the text lexes as the tokens of the term, and these are read as the term
  obtain ⟨s, hrender, hspells⟩ := h.spells
  obtain ⟨u, hreads, hsame⟩ := h.reads
  refine ⟨s, u, hrender, ?_, hsame⟩
  have hends : Ends 1 [] := ⟨stops_nil, by simp⟩
  have hprogram := unlimitedProgram_of_last (hreads.expression [] hends)
  have hlexes := hspells [] [] delimits_nil .nil
  simp only [List.append_nil] at hprogram hlexes
  obtain ⟨htokens, htrouble⟩ := hlexes.lex
  rw [← htokens] at hprogram
  have hparse := parsesTo_unlimited s
  rw [Lexed.unlimitedParse_of_program htrouble hprogram] at hparse
  exact hparse

/-- A term with a signed zero, a text to escape, and forms that need their brackets. -/
def nestedSample : Term :=
  call
    (lambda ["x", "y"] (conditional (binary .lt (var "x") (number (.finite true .zero)))
      (assign (var "b") (text "a\"\\")) missing))
    [block [var "if?", boolean true]]

theorem parsesTo_render_nestedSample :
    nestedSample.WellFormed ∧
    ∃ s u, nestedSample.render = .ok s ∧ ParsesTo s (.ok [u]) ∧ nestedSample.same u = true := by
  have hcondition : (binary .lt (var "x") (number (.finite true .zero))).WellFormed :=
    .binary (by decide) (.var (by decide)) (.number (by decide) (by decide))
  have hargument : (block [var "if?", boolean true]).WellFormed := by
    refine .block (by decide) fun e he => ?_
    simp only [List.mem_cons, List.not_mem_nil, or_false] at he
    rcases he with rfl | rfl
    · exact .var (by decide)
    · exact .boolean true
  have h : nestedSample.WellFormed := by
    refine .call (.lambda (by decide)
      (.oneBranch hcondition (.assign (.var (by decide)) (.text _)))) fun a ha => ?_
    obtain rfl := List.mem_singleton.1 ha
    exact hargument
  exact ⟨h, parsesTo_render h⟩

end Term

end Lamlet
