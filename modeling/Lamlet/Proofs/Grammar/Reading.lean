import Lamlet.Proofs.Grammar.Limit

/-!
# Reading production by production

What the readers do with each form of expression, without limits and budgets: given how
the parts are read, how the whole is.

## Main definitions

* `joinTokens` — words with a separator between each two.
* `ReadsItems` — the items of a row and the mark that closes it are read.
* `Stops` — neither a call nor an operator comes next.

## Main results

* `delimited_of_readsItems`, `delimited_parameters` — rows.
* `conditional_of_else`, `conditional_of_stop`, `primary_function` — forms open to the right.
* `unlimited_of_atom`, `unlimited_of_operands` — expressions of one and two operands.
* `unlimitedProgram_of_last`, `unlimitedProgram_of_item` — programs.
-/

namespace Lamlet

namespace Grammar

/-! ### What comes next -/

/-- Neither a call nor an operator comes next. -/
structure Stops (rest : List Token) : Prop where
  /-- No call. -/
  noCall : opens .leftParen rest = false
  /-- No operator. -/
  noInfix : nextInfix? 0 rest = none

theorem stops_nil : Stops [] := ⟨rfl, rfl⟩

theorem stops_mark {m : Punctuation} (h : m ≠ .leftParen) (ts : List Token) :
    Stops (.mark m :: ts) :=
  ⟨by simp [h], rfl⟩

theorem stops_keyword (k : Keyword) (ts : List Token) : Stops (.keyword k :: ts) := ⟨rfl, rfl⟩

/-- Every operator binds tighter than nothing at all. -/
theorem precedence_pos {symbol : String} {op : Infix} (h : Infix.ofSymbol? symbol = some op) :
    0 < op.precedence := by
  unfold Infix.ofSymbol? at h
  split at h
  · obtain rfl := Option.some.inj h
    decide
  · obtain ⟨op', hop', rfl⟩ := Option.map_eq_some_iff.1 h
    have hknown := Operator.mem_known_of_ofSymbol? hop'
    revert hknown
    cases op' <;> simp [Operator.known, Infix.precedence, Operator.precedence]

theorem nextInfix?_operator {symbol : String} {op : Infix} (h : Infix.ofSymbol? symbol = some op)
    (threshold : Nat) (ts : List Token) :
    nextInfix? threshold (.operator symbol :: ts) =
      if threshold < op.precedence then some (op, ts) else none := by
  simp only [nextInfix?, h]

/-- What is no operator at the lowest threshold is none at any. -/
theorem Stops.nextInfix?_eq_none {rest : List Token} (h : Stops rest) (threshold : Nat) :
    nextInfix? threshold rest = none := by
  cases hnext : nextInfix? threshold rest with
  | none => rfl
  | some next =>
    obtain ⟨symbol, rfl, hop, -⟩ := eq_of_nextInfix? hnext
    have hzero := h.noInfix
    rw [nextInfix?_operator hop, if_pos (precedence_pos hop)] at hzero
    cases hzero

/-! ### Operands and their calls -/

theorem calls_of_not_opens {rest : List Token} (h : opens .leftParen rest = false) (e : Term) :
    calls unlimited rest e rest = .ok (e, rest) := by
  rw [calls_eq consumes_unlimited, h]
  rfl

theorem calls_of_row {ts rest : List Token} {args : List Term} (callee : Term)
    (h : delimited .leftParen .rightParen .comma unlimited (.mark .leftParen :: ts)
      = .ok (args, rest)) :
    calls unlimited (.mark .leftParen :: ts) callee (.mark .leftParen :: ts)
      = calls unlimited rest (.call callee args) rest := by
  rw [calls_eq consumes_unlimited, h]
  rfl

theorem atom_eq {ts rest : List Token} {e : Term} (h : primary unlimited ts = .ok (e, rest)) :
    atom unlimited ts = calls unlimited rest e rest := by
  rw [atom, h]
  rfl

/-- An expression in round brackets is an operand. -/
theorem primary_grouped {ts rest : List Token} {e : Term}
    (h : unlimited ts = .ok (e, .mark .rightParen :: rest)) :
    primary unlimited (.mark .leftParen :: ts) = .ok (e, rest) := by
  rw [primary, h]
  rfl

theorem primary_block {ts rest : List Token} {es : List Term}
    (h : delimited .leftBrace .rightBrace .semicolon unlimited (.mark .leftBrace :: ts)
      = .ok (es, rest)) :
    primary unlimited (.mark .leftBrace :: ts) = .ok (blockOf es, rest) := by
  rw [primary, h]
  rfl

/-- No expression starts with a mark that does not open one. -/
theorem not_opens_of_unlimited {ts rest : List Token} {e : Term}
    (h : unlimited ts = .ok (e, rest)) {m : Punctuation} (hparen : m ≠ .leftParen)
    (hbrace : m ≠ .leftBrace) : opens m ts = false := by
  cases hopen : opens m ts with
  | false => rfl
  | true =>
    obtain ⟨ts', rfl⟩ := opens_iff.1 hopen
    have hprimary : primary unlimited (.mark m :: ts')
        = .error (.unwanted .expression (.mark m :: ts')) := by
      cases m with
      | leftParen => exact absurd rfl hparen
      | leftBrace => exact absurd rfl hbrace
      | _ => rfl
    rw [unlimited_eq, expressionWith, operation, atom, hprimary] at h
    cases h

/-! ### Rows -/

/-- Words with a separator between each two. -/
def joinTokens (s : Punctuation) : List (List Token) → List Token
  | [] => []
  | [w] => w
  | w :: ws => w ++ .mark s :: joinTokens s ws

/-- The items of a row and the mark that closes it are read. -/
def ReadsItems (close separator : Punctuation) (ts : List Token) (es : List Term)
    (rest : List Token) : Prop :=
  ∃ e es' ts', unlimited ts = .ok (e, ts')
    ∧ moreItems close separator unlimited ts' ts' = .ok (es', rest) ∧ es = e :: es'

theorem readsItems_one {close : Punctuation} (separator : Punctuation) {ts rest : List Token}
    {e : Term} (h : unlimited ts = .ok (e, .mark close :: rest)) :
    ReadsItems close separator ts [e] rest := by
  refine ⟨e, [], _, h, ?_, rfl⟩
  rw [moreItems_eq consumes_unlimited]
  simp

theorem readsItems_more {close separator : Punctuation} (hne : separator ≠ close)
    {ts ts' rest : List Token} {e : Term} {es : List Term}
    (h : unlimited ts = .ok (e, .mark separator :: ts'))
    (h' : ReadsItems close separator ts' es rest) :
    ReadsItems close separator ts (e :: es) rest := by
  obtain ⟨e', es', ts'', he', hes', rfl⟩ := h'
  refine ⟨e, e' :: es', _, h, ?_, rfl⟩
  rw [moreItems_eq consumes_unlimited, if_neg (by simp [hne]), expectMark_mark]
  show (unlimited ts' >>= _) = _
  rw [he']
  show (moreItems close separator unlimited ts'' ts'' >>= _) = _
  rw [hes']
  rfl

theorem delimited_nil {α : Type} (start close separator : Punctuation) (item : Reader α)
    (rest : List Token) :
    delimited start close separator item (.mark start :: .mark close :: rest)
      = .ok ([], rest) := by
  rw [delimited, expectMark_mark]
  show (if opens close (.mark close :: rest) then _ else _) = _
  rw [opens_mark, if_pos (by simp)]
  rfl

/-- A row of expressions is read from its marks. -/
theorem delimited_of_readsItems (start : Punctuation) {close separator : Punctuation}
    (hclose : close = .rightParen ∨ close = .rightBrace) {ts rest : List Token} {es : List Term}
    (h : ReadsItems close separator ts es rest) :
    delimited start close separator unlimited (.mark start :: ts) = .ok (es, rest) := by
  obtain ⟨e, es', ts', he, hes', rfl⟩ := h
  have hopen : opens close ts = false := by
    refine not_opens_of_unlimited he ?_ ?_ <;> rcases hclose with rfl | rfl <;> simp
  rw [delimited, expectMark_mark]
  show (if opens close ts then _ else unlimited ts >>= _) = _
  rw [hopen, he]
  show (moreItems close separator unlimited ts' ts' >>= _) = _
  rw [hes']
  rfl

/-- The names of parameters are read as they stand. -/
theorem moreItems_parameter (ns : List String) (rest : List Token) :
    moreItems .rightParen .comma parameter
        (ns.flatMap (fun n => [.mark .comma, .name n]) ++ .mark .rightParen :: rest)
        (ns.flatMap (fun n => [.mark .comma, .name n]) ++ .mark .rightParen :: rest)
      = .ok (ns, rest) := by
  induction ns with
  | nil => rfl
  | cons n ns ih =>
    rw [moreItems_eq consumes_parameter]
    simp only [List.flatMap_cons, List.cons_append, List.nil_append, opens_mark, expectMark_mark]
    show (moreItems .rightParen .comma parameter _ _ >>= _) = _
    rw [ih]
    rfl

theorem joinTokens_names (n : String) (ns : List String) :
    joinTokens .comma ((n :: ns).map fun n => [.name n])
      = .name n :: ns.flatMap fun n => [.mark .comma, .name n] := by
  induction ns generalizing n with
  | nil => rfl
  | cons m ns ih =>
    show [Token.name n] ++ .mark .comma :: joinTokens .comma ((m :: ns).map fun n => [.name n]) = _
    rw [ih]
    rfl

theorem delimited_parameters (ps : List String) (rest : List Token) :
    delimited .leftParen .rightParen .comma parameter
        (.mark .leftParen :: (joinTokens .comma (ps.map fun n => [.name n])
          ++ .mark .rightParen :: rest))
      = .ok (ps, rest) := by
  cases ps with
  | nil => rfl
  | cons n ns =>
    rw [joinTokens_names, delimited, expectMark_mark, List.cons_append]
    show (moreItems .rightParen .comma parameter
        (ns.flatMap (fun n => [.mark .comma, .name n]) ++ .mark .rightParen :: rest)
        (ns.flatMap (fun n => [.mark .comma, .name n]) ++ .mark .rightParen :: rest) >>= _) = _
    rw [moreItems_parameter]
    rfl

/-! ### Forms open to the right -/

/-- A conditional with both branches. -/
theorem conditional_of_else {ts ts₁ ts₂ ts₃ rest : List Token} {c t e : Term}
    (hc : unlimited ts = .ok (c, ts₁)) (hthen : expectBranch ts₁ = .ok ts₂)
    (ht : unlimited ts₂ = .ok (t, .keyword .elseWord :: ts₃))
    (he : unlimited ts₃ = .ok (e, rest)) :
    primary unlimited (.keyword .ifWord :: ts) = .ok (.conditional c t e, rest) := by
  rw [primary, conditional, hc]
  show (expectBranch ts₁ >>= _) = _
  rw [hthen]
  show (unlimited ts₂ >>= _) = _
  rw [ht]
  show (unlimited ts₃ >>= _) = _
  rw [he]
  rfl

/-- A conditional without a second branch, where no `else` comes next. -/
theorem conditional_of_stop {ts ts₁ ts₂ rest : List Token} {c t : Term}
    (hc : unlimited ts = .ok (c, ts₁)) (hthen : expectBranch ts₁ = .ok ts₂)
    (ht : unlimited ts₂ = .ok (t, rest))
    (hrest : ∀ ts₃, rest ≠ .keyword .elseWord :: ts₃) :
    primary unlimited (.keyword .ifWord :: ts) = .ok (.conditional c t .missing, rest) := by
  rw [primary, conditional, hc]
  show (expectBranch ts₁ >>= _) = _
  rw [hthen]
  show (unlimited ts₂ >>= _) = _
  rw [ht]
  -- the first row of the match is ruled out by what comes next
  simp only [bind, Except.bind]
  rfl

/-- A function. -/
theorem primary_function {k : Keyword} (hk : k = .lambdaWord ∨ k = .lambdaLetter)
    (ps : List String) {ts rest : List Token} {b : Term} (hb : unlimited ts = .ok (b, rest)) :
    primary unlimited (.keyword k :: .mark .leftParen ::
        (joinTokens .comma (ps.map fun n => [.name n]) ++ .mark .rightParen :: ts))
      = .ok (.lambda ps b, rest) := by
  have hfunction : function unlimited (.mark .leftParen ::
      (joinTokens .comma (ps.map fun n => [.name n]) ++ .mark .rightParen :: ts))
      = .ok (.lambda ps b, rest) := by
    rw [function, delimited_parameters]
    show (unlimited ts >>= _) = _
    rw [hb]
    rfl
  rcases hk with rfl | rfl
  · exact hfunction
  · exact hfunction

/-! ### Expressions -/

theorem climb_of_stops {rest : List Token} (h : Stops rest) (threshold : Nat) (e : Term) :
    climb unlimited rest threshold e rest = .ok (e, rest) := by
  rw [climb_unlimited, h.nextInfix?_eq_none]

theorem unlimited_eq_of_atom {ts ts' : List Token} {left : Term}
    (h : atom unlimited ts = .ok (left, ts')) :
    unlimited ts = (do
      let (e, ts) ← climb unlimited ts' 0 left ts'
      calls unlimited ts e ts) := by
  rw [unlimited_eq, expressionWith, operation, h]
  rfl

/-- An operand is an expression. -/
theorem unlimited_of_atom {ts rest : List Token} {e : Term}
    (h : atom unlimited ts = .ok (e, rest)) (hrest : Stops rest) :
    unlimited ts = .ok (e, rest) := by
  rw [unlimited_eq_of_atom h, climb_of_stops hrest]
  exact calls_of_not_opens hrest.noCall e

/-- Two operands with an operator between them are an expression. -/
theorem unlimited_of_operands {ts ts' rest : List Token} {symbol : String} {op : Infix}
    {left right : Term} (hop : Infix.ofSymbol? symbol = some op)
    (hleft : atom unlimited ts = .ok (left, .operator symbol :: ts'))
    (hright : atom unlimited ts' = .ok (right, rest)) (hrest : Stops rest) :
    unlimited ts = .ok (join op left right, rest) := by
  rw [unlimited_eq_of_atom hleft, climb_unlimited, nextInfix?_operator hop,
    if_pos (precedence_pos hop)]
  simp only [hright]
  show (climb unlimited rest op.precedence right rest >>= _) >>= _ = _
  rw [climb_of_stops hrest]
  show (climb unlimited rest 0 (join op left right) rest >>= _) = _
  rw [climb_of_stops hrest]
  exact calls_of_not_opens hrest.noCall _

/-! ### Programs -/

theorem exists_cons_of_unlimited {ts rest : List Token} {e : Term}
    (h : unlimited ts = .ok (e, rest)) : ∃ t ts', ts = t :: ts' := by
  obtain ⟨w, hw, rfl⟩ := consumes_unlimited h
  obtain ⟨t, w', rfl⟩ := List.exists_cons_of_ne_nil (hw.ne_nil (by simp))
  exact ⟨t, w' ++ rest, rfl⟩

/-- The last expression of a program. -/
theorem unlimitedProgram_of_last {ts : List Token} {e : Term} (h : unlimited ts = .ok (e, [])) :
    unlimitedProgram ts = .ok [e] := by
  obtain ⟨t, ts', rfl⟩ := exists_cons_of_unlimited h
  rw [unlimitedProgram_cons, h]
  rfl

/-- An expression of a program with a semicolon after it. -/
theorem unlimitedProgram_of_item {ts rest : List Token} {e : Term}
    (h : unlimited ts = .ok (e, .mark .semicolon :: rest)) :
    unlimitedProgram ts = (do
      let es ← unlimitedProgram rest
      return e :: es) := by
  obtain ⟨t, ts', rfl⟩ := exists_cons_of_unlimited h
  rw [unlimitedProgram_cons, h]
  simp only [bind, Except.bind, expectMark_mark]

end Grammar

end Lamlet
