import Lamlet.Term.Grammar

/-!
# The language of the grammar

The grammar as a set of productions over tokens.  It is ambiguous: an `else` may belong
to several conditionals, and what follows the last branch of a conditional or the body of
a function may belong to the branch or body or to the expression around it.

What a reader consumes is always a word of its nonterminal.

## Main definitions

* `Nonterminal`, `Derives` — the nonterminals, and the words derived from each.
* `Consumes` — a reader consumes words of a given language only.

## Main results

* `consumes_expression` — the reader of expressions consumes expressions.
* `derives_of_program` — tokens that are read as a program are derivable.
-/

namespace Lamlet

/-- A computation that may fail and did not went through its first step. -/
theorem exists_of_bind_eq_ok {ε α β : Type} {x : Except ε α} {f : α → Except ε β} {b : β}
    (h : (x >>= f) = .ok b) : ∃ a, x = .ok a ∧ f a = .ok b := by
  cases x with
  | error e => cases h
  | ok a => exact ⟨a, rfl, h⟩

theorem eq_error_or_of_bind_eq_error {ε α β : Type} {x : Except ε α} {f : α → Except ε β} {e : ε}
    (h : (x >>= f) = .error e) : x = .error e ∨ ∃ a, x = .ok a ∧ f a = .error e := by
  cases x with
  | error e' =>
    obtain rfl := Except.error.inj h
    exact .inl rfl
  | ok a => exact .inr ⟨a, rfl, h⟩

namespace Grammar

/-! ### Productions -/

/-- The nonterminals. -/
inductive Nonterminal where
  /-- A whole program. -/
  | program
  /-- Operands with operators between them. -/
  | expression
  /-- An operand with the calls that follow it. -/
  | atom
  /-- An operand without calls. -/
  | primary
  /-- The first branch of a conditional, with the `then` before it if it has one. -/
  | branch
  /-- Expressions with separators between them, possibly none. -/
  | row (separator : Punctuation)
  /-- One expression or several with separators between them. -/
  | items (separator : Punctuation)
  /-- The names of parameters, possibly none. -/
  | parameters
  /-- One name or several with commas between them. -/
  | names
  deriving DecidableEq, Repr, Inhabited

/-- The words that are derived from a nonterminal. -/
inductive Derives : Nonterminal → List Token → Prop where
  | noProgram : Derives .program []
  | program {w : List Token} : Derives (.items .semicolon) w → Derives .program w
  | closedProgram {w : List Token} :
      Derives (.items .semicolon) w → Derives .program (w ++ [.mark .semicolon])
  | operand {w : List Token} : Derives .atom w → Derives .expression w
  | joined {w v : List Token} {symbol : String} {op : Infix} :
      Derives .expression w → Infix.ofSymbol? symbol = some op → Derives .atom v →
      Derives .expression (w ++ .operator symbol :: v)
  | uncalled {w : List Token} : Derives .primary w → Derives .atom w
  | called {w args : List Token} :
      Derives .atom w → Derives (.row .comma) args →
      Derives .atom (w ++ .mark .leftParen :: (args ++ [.mark .rightParen]))
  | grouped {w : List Token} :
      Derives .expression w → Derives .primary (.mark .leftParen :: (w ++ [.mark .rightParen]))
  | block {w : List Token} :
      Derives (.row .semicolon) w →
      Derives .primary (.mark .leftBrace :: (w ++ [.mark .rightBrace]))
  | oneBranch {c b : List Token} :
      Derives .expression c → Derives .branch b →
      Derives .primary (.keyword .ifWord :: (c ++ b))
  | twoBranches {c b e : List Token} :
      Derives .expression c → Derives .branch b → Derives .expression e →
      Derives .primary (.keyword .ifWord :: (c ++ (b ++ .keyword .elseWord :: e)))
  | trueWord : Derives .primary [.keyword .trueWord]
  | falseWord : Derives .primary [.keyword .falseWord]
  | function {ps b : List Token} {k : Keyword} :
      k = .lambdaWord ∨ k = .lambdaLetter → Derives .parameters ps → Derives .expression b →
      Derives .primary (.keyword k :: .mark .leftParen :: (ps ++ .mark .rightParen :: b))
  | name (n : String) : Derives .primary [.name n]
  | number (x : Number) : Derives .primary [.number x]
  | text (s : String) : Derives .primary [.text s]
  | marked {w : List Token} : Derives .expression w → Derives .branch (.keyword .thenWord :: w)
  | braced {w : List Token} :
      Derives .expression (.mark .leftBrace :: w) → Derives .branch (.mark .leftBrace :: w)
  | emptyRow {s : Punctuation} : Derives (.row s) []
  | row {s : Punctuation} {w : List Token} : Derives (.items s) w → Derives (.row s) w
  | item {s : Punctuation} {w : List Token} : Derives .expression w → Derives (.items s) w
  | moreItems {s : Punctuation} {w v : List Token} :
      Derives .expression w → Derives (.items s) v → Derives (.items s) (w ++ .mark s :: v)
  | noParameters : Derives .parameters []
  | parameters {w : List Token} : Derives .names w → Derives .parameters w
  | oneName (n : String) : Derives .names [.name n]
  | moreNames {w : List Token} (n : String) :
      Derives .names w → Derives .names (.name n :: .mark .comma :: w)

/-- Words of expressions and of their parts are not empty. -/
theorem Derives.ne_nil {n : Nonterminal} {w : List Token} (h : Derives n w)
    (hn : n = .expression ∨ n = .atom ∨ n = .primary) : w ≠ [] := by
  induction h with
  | operand h ih => exact ih (by simp)
  | uncalled h ih => exact ih (by simp)
  | _ => simp at hn ⊢

/-! ### Single tokens -/

/-- The reader consumes words of the language only. -/
def Consumes {α : Type} (L : List Token → Prop) (p : Reader α) : Prop :=
  ∀ ⦃ts rest : List Token⦄ ⦃a : α⦄, p ts = .ok (a, rest) → ∃ w, L w ∧ ts = w ++ rest

theorem opens_iff {m : Punctuation} {ts : List Token} :
    opens m ts = true ↔ ∃ rest, ts = .mark m :: rest := by
  constructor
  · intro h
    unfold opens at h
    split at h
    · next m' rest =>
      obtain rfl : m' = m := by simpa using h
      exact ⟨rest, rfl⟩
    · simp at h
  · rintro ⟨rest, rfl⟩
    simp [opens]

@[simp] theorem opens_mark (m m' : Punctuation) (ts : List Token) :
    opens m (.mark m' :: ts) = decide (m' = m) := rfl

theorem eq_of_expectMark {m : Punctuation} {ts rest : List Token}
    (h : expectMark m ts = .ok rest) : ts = .mark m :: rest := by
  unfold expectMark at h
  split at h
  · next hopen =>
    obtain ⟨rest', rfl⟩ := opens_iff.1 hopen
    simpa using h
  · simp at h

@[simp] theorem expectMark_mark (m : Punctuation) (ts : List Token) :
    expectMark m (.mark m :: ts) = .ok ts := by
  simp [expectMark]

theorem eq_of_expectKeyword {k : Keyword} {ts rest : List Token}
    (h : expectKeyword k ts = .ok rest) : ts = .keyword k :: rest := by
  unfold expectKeyword at h
  split at h
  · split at h
    · next hk =>
      obtain rfl := Except.ok.inj h
      rw [hk]
    · simp at h
  · simp at h

theorem consumes_parameter : Consumes (fun w => ∃ n, w = [.name n]) parameter := by
  intro ts rest n h
  unfold parameter at h
  split at h
  · next n' ts =>
    simp only [Except.ok.injEq, Prod.mk.injEq] at h
    exact ⟨[.name n'], ⟨n', rfl⟩, by rw [← h.2]; rfl⟩
  · simp at h

/-! ### Rows -/

/-- Items of a language with a separator between each two. -/
inductive Separated (L : List Token → Prop) (s : Punctuation) : List Token → Prop where
  | one {w : List Token} : L w → Separated L s w
  | more {w v : List Token} : L w → Separated L s v → Separated L s (w ++ .mark s :: v)

/-- The items after the first one come with their separators before them. -/
inductive Continued (L : List Token → Prop) (s : Punctuation) : List Token → Prop where
  | none : Continued L s []
  | more {w v : List Token} : L w → Continued L s v → Continued L s (.mark s :: (w ++ v))

theorem Continued.separated {L : List Token → Prop} {s : Punctuation} {w v : List Token}
    (hw : L w) (hv : Continued L s v) : Separated L s (w ++ v) := by
  induction hv generalizing w with
  | none => simpa using Separated.one hw
  | more hw' _ ih => exact .more hw (ih hw')

theorem consumes_moreItems {α : Type} {L : List Token → Prop} {item : Reader α}
    (hitem : Consumes L item) (close separator : Punctuation) (budget : List Token) :
    Consumes (fun w => ∃ v, Continued L separator v ∧ w = v ++ [.mark close])
      (moreItems close separator item budget) := by
  induction budget with
  | nil =>
    intro ts rest xs h
    unfold moreItems at h
    split at h
    · next hclose =>
      obtain ⟨rest', rfl⟩ := opens_iff.1 hclose
      obtain ⟨-, rfl⟩ := Prod.mk.inj (Except.ok.inj h)
      exact ⟨_, ⟨[], .none, rfl⟩, rfl⟩
    · simp at h
  | cons b budget ih =>
    intro ts rest xs h
    unfold moreItems at h
    split at h
    · next hclose =>
      obtain ⟨rest', rfl⟩ := opens_iff.1 hclose
      obtain ⟨-, rfl⟩ := Prod.mk.inj (Except.ok.inj h)
      exact ⟨_, ⟨[], .none, rfl⟩, rfl⟩
    · obtain ⟨ts₁, hmark, h₁⟩ := exists_of_bind_eq_ok h
      obtain ⟨⟨x, ts₂⟩, hx, h₂⟩ := exists_of_bind_eq_ok h₁
      obtain ⟨⟨xs', ts₃⟩, hxs, h₃⟩ := exists_of_bind_eq_ok h₂
      obtain ⟨w, hw, rfl⟩ := hitem hx
      obtain ⟨_, ⟨v, hv, rfl⟩, rfl⟩ := ih hxs
      obtain ⟨-, rfl⟩ := Prod.mk.inj (Except.ok.inj h₃)
      -- what was read is one more item, and the separator before it
      refine ⟨.mark separator :: (w ++ v) ++ [.mark close], ⟨_, .more hw hv, rfl⟩, ?_⟩
      rw [eq_of_expectMark hmark]
      simp

theorem consumes_delimited {α : Type} {L : List Token → Prop} {item : Reader α}
    (hitem : Consumes L item) (start close separator : Punctuation) :
    Consumes (fun w => ∃ v, (v = [] ∨ Separated L separator v) ∧
        w = .mark start :: (v ++ [.mark close]))
      (delimited start close separator item) := by
  intro ts rest xs h
  obtain ⟨ts₁, hmark, h₁⟩ := exists_of_bind_eq_ok h
  obtain rfl := eq_of_expectMark hmark
  split at h₁
  · next hclose =>
    obtain ⟨rest', rfl⟩ := opens_iff.1 hclose
    obtain ⟨-, rfl⟩ := Prod.mk.inj (Except.ok.inj h₁)
    exact ⟨_, ⟨[], .inl rfl, rfl⟩, rfl⟩
  · obtain ⟨⟨x, ts₂⟩, hx, h₂⟩ := exists_of_bind_eq_ok h₁
    obtain ⟨⟨xs', ts₃⟩, hxs, h₃⟩ := exists_of_bind_eq_ok h₂
    obtain ⟨-, rfl⟩ := Prod.mk.inj (Except.ok.inj h₃)
    obtain ⟨w, hw, rfl⟩ := hitem hx
    obtain ⟨_, ⟨v, hv, rfl⟩, rfl⟩ := consumes_moreItems hitem close separator _ hxs
    exact ⟨_, ⟨w ++ v, .inr (hv.separated hw), rfl⟩, by simp⟩

theorem derives_items_of_separated {s : Punctuation} {w : List Token}
    (h : Separated (Derives .expression) s w) : Derives (.items s) w := by
  induction h with
  | one hw => exact .item hw
  | more hw _ ih => exact .moreItems hw ih

theorem derives_row_of_separated {s : Punctuation} {w : List Token}
    (h : w = [] ∨ Separated (Derives .expression) s w) : Derives (.row s) w := by
  rcases h with rfl | h
  · exact .emptyRow
  · exact .row (derives_items_of_separated h)

theorem derives_parameters_of_separated {w : List Token}
    (h : w = [] ∨ Separated (fun w => ∃ n, w = [.name n]) .comma w) :
    Derives .parameters w := by
  rcases h with rfl | h
  · exact .noParameters
  · refine .parameters ?_
    induction h with
    | one hw =>
      obtain ⟨n, rfl⟩ := hw
      exact .oneName n
    | more hw _ ih =>
      obtain ⟨n, rfl⟩ := hw
      exact .moreNames n ih

/-! ### Without a budget -/

/-- Without a budget there are no calls. -/
theorem calls_nil (inner : Reader Term) (callee : Term) :
    calls inner [] callee = fun ts => .ok (callee, ts) := by
  funext ts
  unfold calls
  split
  · rfl
  · rfl

/-- Without a budget there are no operators. -/
theorem climb_nil (inner : Nested) (threshold : Nat) (left : Term) :
    climb inner [] threshold left = fun ts => .ok (left, ts) := by
  funext ts
  unfold climb
  split
  · rfl
  · rfl

/-! ### Levels of an expression -/

section Levels

variable {inner : Reader Term} (hinner : Consumes (Derives .expression) inner)

include hinner

/-- Calls go on with a word of any language that calls can go on with. -/
theorem consumes_calls {X : List Token → Prop}
    (hX : ∀ {w args : List Token}, X w → Derives (.row .comma) args →
      X (w ++ .mark .leftParen :: (args ++ [.mark .rightParen])))
    (budget : List Token) (callee : Term) {w₀ : List Token} (hcallee : X w₀) :
    ∀ ⦃ts rest : List Token⦄ ⦃e : Term⦄, calls inner budget callee ts = .ok (e, rest) →
      ∃ w, X (w₀ ++ w) ∧ ts = w ++ rest := by
  induction budget generalizing callee w₀ with
  | nil =>
    intro ts rest e h
    rw [calls_nil] at h
    obtain ⟨-, rfl⟩ := Prod.mk.inj (Except.ok.inj h)
    exact ⟨[], by simpa using hcallee, rfl⟩
  | cons b budget ih =>
    intro ts rest e h
    unfold calls at h
    split at h
    · obtain ⟨⟨args, ts₁⟩, hargs, h₁⟩ := exists_of_bind_eq_ok h
      obtain ⟨_, ⟨v, hv, rfl⟩, rfl⟩ := consumes_delimited hinner _ _ _ hargs
      -- the call just read is what the next ones go on with
      obtain ⟨w, hw, rfl⟩ := ih _ (hX hcallee (derives_row_of_separated hv)) h₁
      exact ⟨.mark .leftParen :: (v ++ [.mark .rightParen]) ++ w, by simpa using hw, by simp⟩
    · obtain ⟨-, rfl⟩ := Prod.mk.inj (Except.ok.inj h)
      exact ⟨[], by simpa using hcallee, rfl⟩

/-- A branch has its `then` before it, or stands in braces. -/
theorem derives_branch {ts₁ ts₂ rest : List Token} {e : Term}
    (hthen : expectBranch ts₁ = .ok ts₂) (he : inner ts₂ = .ok (e, rest)) :
    ∃ b, Derives .branch b ∧ ts₁ = b ++ rest := by
  obtain ⟨w, hw, rfl⟩ := hinner he
  unfold expectBranch at hthen
  split at hthen
  · next hopen =>
    obtain ⟨rest', rfl⟩ := opens_iff.1 hopen
    -- the brace is not consumed here, so it is the first token of the expression
    obtain ⟨t, w, rfl⟩ := List.exists_cons_of_ne_nil (hw.ne_nil (by simp))
    obtain ⟨rfl, rfl⟩ := List.cons.inj (Except.ok.inj hthen)
    exact ⟨_, .braced hw, rfl⟩
  · rw [eq_of_expectKeyword hthen]
    exact ⟨_, .marked hw, rfl⟩

theorem consumes_conditional :
    Consumes (fun w => Derives .primary (.keyword .ifWord :: w)) (conditional inner) := by
  intro ts rest e h
  obtain ⟨⟨c, ts₁⟩, hc, h₁⟩ := exists_of_bind_eq_ok h
  obtain ⟨ts₂, hthen, h₂⟩ := exists_of_bind_eq_ok h₁
  obtain ⟨⟨t, ts₃⟩, ht, h₃⟩ := exists_of_bind_eq_ok h₂
  obtain ⟨w, hw, rfl⟩ := hinner hc
  obtain ⟨b, hb, rfl⟩ := derives_branch hinner hthen ht
  simp only at h₃
  split at h₃
  · next ts₄ =>
    obtain ⟨⟨a, ts₅⟩, ha, h₄⟩ := exists_of_bind_eq_ok h₃
    obtain ⟨v, hv, rfl⟩ := hinner ha
    obtain ⟨-, rfl⟩ := Prod.mk.inj (Except.ok.inj h₄)
    exact ⟨_, .twoBranches hw hb hv, by simp⟩
  · obtain ⟨-, rfl⟩ := Prod.mk.inj (Except.ok.inj h₃)
    exact ⟨_, .oneBranch hw hb, by simp⟩

theorem consumes_function {k : Keyword} (hk : k = .lambdaWord ∨ k = .lambdaLetter) :
    Consumes (fun w => Derives .primary (.keyword k :: w)) (function inner) := by
  intro ts rest e h
  obtain ⟨⟨ps, ts₁⟩, hps, h₁⟩ := exists_of_bind_eq_ok h
  obtain ⟨⟨b, ts₂⟩, hb, h₂⟩ := exists_of_bind_eq_ok h₁
  obtain ⟨_, ⟨v, hv, rfl⟩, rfl⟩ := consumes_delimited consumes_parameter _ _ _ hps
  obtain ⟨w, hw, rfl⟩ := hinner hb
  obtain ⟨-, rfl⟩ := Prod.mk.inj (Except.ok.inj h₂)
  refine ⟨.mark .leftParen :: (v ++ .mark .rightParen :: w), ?_, by simp⟩
  exact .function hk (derives_parameters_of_separated hv) hw

end Levels

section Nesting

variable {inner : Nested} (hinner : ∀ k, Consumes (Derives .expression) (inner k))

include hinner

theorem consumes_primary : Consumes (Derives .primary) (primary inner) := by
  intro ts rest e h
  unfold primary at h
  split at h
  · obtain ⟨⟨e', ts₁⟩, he, h₁⟩ := exists_of_bind_eq_ok h
    obtain ⟨ts₂, hclose, h₂⟩ := exists_of_bind_eq_ok h₁
    obtain ⟨w, hw, rfl⟩ := hinner 0 he
    obtain rfl := eq_of_expectMark hclose
    obtain ⟨-, rfl⟩ := Prod.mk.inj (Except.ok.inj h₂)
    exact ⟨_, .grouped hw, by simp⟩
  · obtain ⟨⟨es, ts₁⟩, hes, h₁⟩ := exists_of_bind_eq_ok h
    obtain ⟨_, ⟨v, hv, rfl⟩, hts⟩ := consumes_delimited (hinner 2) _ _ _ hes
    obtain ⟨-, rfl⟩ := Prod.mk.inj (Except.ok.inj h₁)
    exact ⟨_, .block (derives_row_of_separated hv), hts⟩
  · obtain ⟨w, hw, rfl⟩ := consumes_conditional (hinner 1) h
    exact ⟨_, hw, rfl⟩
  · obtain ⟨-, rfl⟩ := Prod.mk.inj (Except.ok.inj h)
    exact ⟨_, .trueWord, rfl⟩
  · obtain ⟨-, rfl⟩ := Prod.mk.inj (Except.ok.inj h)
    exact ⟨_, .falseWord, rfl⟩
  · obtain ⟨w, hw, rfl⟩ := consumes_function (hinner 1) (.inl rfl) h
    exact ⟨_, hw, rfl⟩
  · obtain ⟨w, hw, rfl⟩ := consumes_function (hinner 1) (.inr rfl) h
    exact ⟨_, hw, rfl⟩
  · obtain ⟨-, rfl⟩ := Prod.mk.inj (Except.ok.inj h)
    exact ⟨_, .name _, rfl⟩
  · obtain ⟨-, rfl⟩ := Prod.mk.inj (Except.ok.inj h)
    exact ⟨_, .number _, rfl⟩
  · obtain ⟨-, rfl⟩ := Prod.mk.inj (Except.ok.inj h)
    exact ⟨_, .text _, rfl⟩
  · simp at h

theorem consumes_atom : Consumes (Derives .atom) (atom inner) := by
  intro ts rest e h
  obtain ⟨⟨p, ts₁⟩, hp, h₁⟩ := exists_of_bind_eq_ok h
  obtain ⟨w, hw, rfl⟩ := consumes_primary (fun k => hinner (k + 2)) hp
  obtain ⟨v, hv, rfl⟩ := consumes_calls (hinner 3) Derives.called _ _ (Derives.uncalled hw) h₁
  exact ⟨_, hv, by simp⟩

omit hinner in
theorem eq_of_nextInfix? {threshold : Nat} {ts rest : List Token} {op : Infix}
    (h : nextInfix? threshold ts = some (op, rest)) :
    ∃ symbol, ts = .operator symbol :: rest ∧ Infix.ofSymbol? symbol = some op
      ∧ threshold < op.precedence := by
  unfold nextInfix? at h
  split at h
  · next symbol ts =>
    split at h
    · next op' hop =>
      split at h
      · next hlt =>
        simp only [Option.some.injEq, Prod.mk.injEq] at h
        obtain ⟨rfl, rfl⟩ := h
        exact ⟨symbol, rfl, hop, hlt⟩
      · simp at h
    · simp at h
  · simp at h

theorem consumes_climb (budget : List Token) (threshold : Nat) (left : Term) {w₀ : List Token}
    (hleft : Derives .expression w₀) :
    ∀ ⦃ts rest : List Token⦄ ⦃e : Term⦄,
      climb inner budget threshold left ts = .ok (e, rest) →
      ∃ w, Derives .expression (w₀ ++ w) ∧ ts = w ++ rest := by
  induction budget generalizing inner threshold left w₀ with
  | nil =>
    intro ts rest e h
    rw [climb_nil] at h
    obtain ⟨-, rfl⟩ := Prod.mk.inj (Except.ok.inj h)
    exact ⟨[], by simpa using hleft, rfl⟩
  | cons b budget ih =>
    intro ts rest e h
    unfold climb at h
    split at h
    · obtain ⟨-, rfl⟩ := Prod.mk.inj (Except.ok.inj h)
      exact ⟨[], by simpa using hleft, rfl⟩
    · next op rest' hnext =>
      obtain ⟨symbol, rfl, hop, -⟩ := eq_of_nextInfix? hnext
      obtain ⟨⟨right, ts₁⟩, hright, h₁⟩ := exists_of_bind_eq_ok h
      obtain ⟨⟨right', ts₂⟩, hright', h₂⟩ := exists_of_bind_eq_ok h₁
      obtain ⟨v, hv, rfl⟩ := consumes_atom (fun k => hinner (k + 1)) hright
      -- the tighter operators go on with the expression that the new operand ends
      obtain ⟨v', hv', rfl⟩ := ih (fun k => hinner (k + 1)) _ _ (.joined hleft hop hv) hright'
      obtain ⟨w, hw, rfl⟩ := ih hinner _ _ hv' h₂
      exact ⟨.operator symbol :: (v ++ (v' ++ w)), by simpa using hw, by simp⟩

theorem consumes_operation : Consumes (Derives .expression) (operation inner) := by
  intro ts rest e h
  obtain ⟨⟨left, ts₁⟩, hleft, h₁⟩ := exists_of_bind_eq_ok h
  obtain ⟨w, hw, rfl⟩ := consumes_atom (fun k => hinner (k + 1)) hleft
  obtain ⟨v, hv, rfl⟩ := consumes_climb (fun k => hinner (k + 1)) _ _ _ (.operand hw) h₁
  exact ⟨_, hv, by simp⟩

omit hinner in
/-- A call after an expression is a call of its last operand. -/
theorem Derives.called_last {w args : List Token} (hw : Derives .expression w)
    (hargs : Derives (.row .comma) args) :
    Derives .expression (w ++ .mark .leftParen :: (args ++ [.mark .rightParen])) := by
  cases hw with
  | operand hw => exact .operand (.called hw hargs)
  | joined hw hop hv =>
    rw [List.append_assoc, List.cons_append]
    exact .joined hw hop (.called hv hargs)

theorem consumes_expressionWith : Consumes (Derives .expression) (expressionWith inner) := by
  intro ts rest e h
  obtain ⟨⟨e', ts₁⟩, he, h₁⟩ := exists_of_bind_eq_ok h
  obtain ⟨w, hw, rfl⟩ := consumes_operation (fun k => hinner (k + 2)) he
  obtain ⟨v, hv, rfl⟩ := consumes_calls (hinner 3) Derives.called_last _ _ hw h₁
  exact ⟨_, hv, by simp⟩

end Nesting

/-- What holds where no frames are left, and of expressions if it holds of those nested in them,
holds of the readers within any number of frames. -/
theorem nested_induction {motive : Reader Term → Prop}
    (exhausted : motive fun _ => .error .tooDeep)
    (one_more : ∀ frames, (∀ k, motive (nested frames k)) → motive (expressionWith (nested frames)))
    (frames k : Nat) : motive (nested frames k) := by
  induction frames generalizing k with
  | zero => exact exhausted
  | succ frames ih =>
    cases k with
    | zero => exact one_more frames ih
    | succ k => exact ih k

theorem consumes_nested (frames k : Nat) : Consumes (Derives .expression) (nested frames k) :=
  nested_induction (fun _ _ _ h => nomatch h) (fun _ => consumes_expressionWith) frames k

/-- **The reader of expressions consumes expressions:** what it takes off the tokens can be
derived as one.  Nothing is said of what it returns, nor that it takes all that it could. -/
theorem consumes_expression (frames : Nat) :
    Consumes (Derives .expression) (expression frames) :=
  consumes_nested frames 0

/-- An expression before a semicolon and a program is the start of a program. -/
theorem Derives.cons_program {w ts : List Token} (hw : Derives .expression w)
    (hts : Derives .program ts) : Derives .program (w ++ .mark .semicolon :: ts) := by
  cases hts with
  | noProgram => exact .closedProgram (.item hw)
  | program hts => exact .program (.moreItems hw hts)
  | closedProgram hts =>
    have := Derives.closedProgram (.moreItems hw hts)
    simpa using this

/-- **Tokens that are read as a program are derivable.**  The budget has to cover them, as it does
at the start; then it is never what ends the reading. -/
theorem derives_of_programWithin {frames : Nat} {budget ts : List Token} {es : List Term}
    (hbudget : ts.length ≤ budget.length) (h : programWithin frames budget ts = .ok es) :
    Derives .program ts := by
  induction budget generalizing ts es with
  | nil =>
    obtain rfl := List.length_eq_zero_iff.1 (Nat.le_zero.1 hbudget)
    exact .noProgram
  | cons b budget ih =>
    cases ts with
    | nil => exact .noProgram
    | cons t ts =>
      obtain ⟨⟨e, ts₁⟩, he, h₁⟩ := exists_of_bind_eq_ok h
      obtain ⟨w, hw, hts⟩ := consumes_expression frames he
      rw [hts] at hbudget ⊢
      simp only at h₁
      split at h₁
      · simpa using Derives.program (.item hw)
      · obtain ⟨ts₂, hmark, h₂⟩ := exists_of_bind_eq_ok h₁
        obtain ⟨es', hes', -⟩ := exists_of_bind_eq_ok h₂
        obtain rfl := eq_of_expectMark hmark
        -- the budget has lost one token and the expression at least one
        refine hw.cons_program (ih ?_ hes')
        simp only [List.length_append, List.length_cons] at hbudget
        omega

theorem derives_of_program {frames : Nat} {ts : List Token} {es : List Term}
    (h : program frames ts = .ok es) : Derives .program ts :=
  derives_of_programWithin (Nat.le_refl _) h

end Grammar

end Lamlet
