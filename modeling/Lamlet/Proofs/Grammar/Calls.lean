import Lamlet.Proofs.Grammar.States

/-!
# Calls bind tightest

Calls are looked for in two places: after every operand, and once more after a whole expression.
An operand takes all the calls that follow it.  A climb over operators begins and goes on behind
operands only, whatever its threshold, so that no call follows when it ends either.  Therefore
the second place never finds one, and no operation is ever taken for a callee unless it stands in
brackets.

## Main definitions

* `operationAbove` — operands and the operators between them that bind tighter than a threshold.
* `Lexer.NoCall` — no call comes next.
* `TightCalls` — what it means at a lexer that calls bind tighter than every operator.

## Main results

* `not_opens_of_calls`, `not_opens_of_climb` — no call follows the calls of an operand, nor a climb.
* `expression_succ` — an expression is read without the calls after it.
* `tightCalls` — **calls bind tighter than every operator, in every state of the lexer.**
-/

namespace Lamlet

namespace Grammar

/-! ### What calls and operators leave -/

/-- Reads operands with operators between them that bind tighter than a threshold.  At threshold
zero this is `operation`. -/
def operationAbove (threshold : Nat) (inner : Nested) : Reader Term := fun ts => do
  let (left, ts) ← atom (inner.below 1) ts
  climb (inner.below 1) ts threshold left ts

/-- An expression is an operation and the calls after it. -/
theorem expressionWith_eq (inner : Nested) (ts : List Token) :
    expressionWith inner ts = operationAbove 0 (inner.below 2) ts >>= fun first =>
      calls (inner 3) first.2 first.1 first.2 := rfl

section

variable {inner : Reader Term} (hinner : Consumes (Derives .expression) inner)

include hinner

/-- The calls of an operand are taken to the last one, as the budget covers all tokens. -/
theorem not_opens_of_calls {budget ts rest : List Token} {callee e : Term}
    (hbudget : ts.length ≤ budget.length) (h : calls inner budget callee ts = .ok (e, rest)) :
    opens .leftParen rest = false := by
  induction budget generalizing callee ts with
  | nil =>
    -- a budget that is used up has no tokens to cover, and no arguments are left
    obtain rfl := List.length_eq_zero_iff.1 (Nat.le_zero.1 hbudget)
    obtain ⟨-, rfl⟩ := Prod.mk.inj (Except.ok.inj h)
    rfl
  | cons b budget ih =>
    unfold calls at h
    split at h
    · obtain ⟨⟨arguments, ts₁⟩, harguments, hmore⟩ := exists_of_bind_eq_ok h
      have hlt := length_of_delimited hinner harguments
      rw [List.length_cons] at hbudget
      exact ih (by omega) hmore
    · next hopens =>
      obtain ⟨-, rfl⟩ := Prod.mk.inj (Except.ok.inj h)
      exact Bool.eq_false_of_not_eq_true hopens

theorem consumes_allCalls (callee : Term) :
    Consumes (fun _ => True) fun ts => calls inner ts callee ts := by
  intro ts rest e h
  obtain ⟨w, -, hts⟩ :=
    @consumes_calls inner hinner (fun _ => True) (fun _ _ => trivial) ts callee [] trivial _ _ _ h
  exact ⟨w, trivial, hts⟩

end

section

variable {inner : Nested} (hinner : ∀ k, Consumes (Derives .expression) (inner k))

include hinner

theorem not_opens_of_atom {ts rest : List Token} {e : Term} (h : atom inner ts = .ok (e, rest)) :
    opens .leftParen rest = false := by
  obtain ⟨⟨callee, ts₁⟩, -, hcalls⟩ := exists_of_bind_eq_ok h
  exact not_opens_of_calls (hinner 3) (Nat.le_refl _) hcalls

/-- A climb that starts behind an operand ends behind one. -/
theorem not_opens_of_climb {budget ts rest : List Token} {threshold : Nat} {left e : Term}
    (hstart : opens .leftParen ts = false)
    (h : climb inner budget threshold left ts = .ok (e, rest)) :
    opens .leftParen rest = false := by
  induction budget generalizing inner threshold left ts e rest with
  | nil =>
    rw [climb_nil] at h
    obtain ⟨-, rfl⟩ := Prod.mk.inj (Except.ok.inj h)
    exact hstart
  | cons b budget ih =>
    unfold climb at h
    split at h
    · obtain ⟨-, rfl⟩ := Prod.mk.inj (Except.ok.inj h)
      exact hstart
    · -- the climb on the right starts behind its operand, and the next round where it ends
      obtain ⟨⟨right, ts₁⟩, hright, hclimb⟩ := exists_of_bind_eq_ok h
      obtain ⟨⟨right', ts₂⟩, htighter, hround⟩ := exists_of_bind_eq_ok hclimb
      have hoperand (k : Nat) := hinner (k + 1)
      exact ih hinner (ih hoperand (not_opens_of_atom hoperand hright) htighter) hround

theorem not_opens_of_operationAbove {threshold : Nat} {ts rest : List Token} {e : Term}
    (h : operationAbove threshold inner ts = .ok (e, rest)) : opens .leftParen rest = false := by
  obtain ⟨⟨left, ts₁⟩, hleft, hclimb⟩ := exists_of_bind_eq_ok h
  have hoperand (k : Nat) := hinner (k + 1)
  exact not_opens_of_climb hoperand (not_opens_of_atom hoperand hleft) hclimb

theorem consumes_operationAbove (threshold : Nat) :
    Consumes (Derives .expression) (operationAbove threshold inner) := by
  intro ts rest e h
  obtain ⟨⟨left, ts₁⟩, hleft, hclimb⟩ := exists_of_bind_eq_ok h
  obtain ⟨w, hw, rfl⟩ := consumes_atom (fun k => hinner (k + 1)) hleft
  obtain ⟨v, hv, rfl⟩ := consumes_climb (fun k => hinner (k + 1)) _ _ _ (.operand hw) hclimb
  exact ⟨_, hv, by simp⟩

/-- Behind an operation no calls are found, whatever their arguments are read with. -/
theorem calls_of_operationAbove {threshold : Nat} {ts rest : List Token} {e : Term}
    (h : operationAbove threshold inner ts = .ok (e, rest)) {argument : Reader Term}
    (hargument : Consumes (Derives .expression) argument) :
    calls argument rest e rest = .ok (e, rest) := by
  rw [calls_eq hargument, not_opens_of_operationAbove hinner h]
  rfl

theorem expressionWith_eq_operationAbove (ts : List Token) :
    expressionWith inner ts = operationAbove 0 (inner.below 2) ts := by
  rw [expressionWith_eq]
  cases hread : operationAbove 0 (inner.below 2) ts with
  | error reject => rfl
  | ok first => exact calls_of_operationAbove (fun k => hinner (k + 2)) hread (hinner 3)

end

/-- **An expression is read without the calls after it,** as there are none. -/
theorem expression_succ (frames : Nat) :
    expression (frames + 1) = operationAbove 0 ((nested frames).below 2) :=
  funext (expressionWith_eq_operationAbove (consumes_nested frames))

end Grammar

/-! ### In every state of the lexer -/

open Grammar

/-- No call comes next: asked for a token, the lexer raises no fault and gives no opening
bracket. -/
def Lexer.NoCall (l : Lexer) : Prop :=
  ∃ found, l.Answers (.ok found) ∧ found ≠ some (.mark .leftParen)

/-- Calls bind tighter than every operator when expressions are read at a lexer, with so many
frames for those nested in them. -/
structure TightCalls (frames : Nat) (l : Lexer) : Prop where
  /-- No call follows an operand, however many of the frames are taken before it. -/
  atom : ∀ k e l', l.read (Grammar.atom ((nested frames).below k)) = .ok (e, l') → l'.NoCall
  /-- None follows operands and operators, whatever the threshold is. -/
  operation : ∀ k threshold e l',
    l.read (operationAbove threshold ((nested frames).below k)) = .ok (e, l') → l'.NoCall
  /-- An expression is read by looking for calls once more, in the state in which its operands and
  operators end. -/
  outer : ∀ e l', l.read (Grammar.expression (frames + 1)) = .ok (e, l') ↔
    ∃ e₁ l₁, l.read (operationAbove 0 ((nested frames).below 2)) = .ok (e₁, l₁) ∧
      l₁.read (fun ts => calls (nested frames 3) ts e₁ ts) = .ok (e, l')
  /-- This changes neither the term nor the state. -/
  unwrapped : ∀ e l', l.read (operationAbove 0 ((nested frames).below 2)) = .ok (e, l') →
    l'.read (fun ts => calls (nested frames 3) ts e ts) = .ok (e, l')
  /-- So an expression gives the term of its operands and operators and leaves the state that they
  leave, or it fails as they do. -/
  expression : l.read (Grammar.expression (frames + 1))
    = l.read (operationAbove 0 ((nested frames).below 2))

/-- A reader that leaves no call to the tokens leaves none to the lexer. -/
theorem Lexer.noCall_of_read {L : List Token → Prop} {l l' : Lexer} {p : Reader Term} {e : Term}
    (hp : Consumes L p)
    (hopens : ∀ ts rest, p ts = .ok (e, rest) → opens .leftParen rest = false)
    (h : l.read p = .ok (e, l')) : l'.NoCall := by
  obtain ⟨hread, hanswers⟩ := state_of_read hp h
  refine ⟨_, hanswers, fun hhead => ?_⟩
  obtain ⟨ts, hts⟩ := List.head?_eq_some_iff.1 hhead
  have hnot := hopens _ _ hread
  rw [hts, opens_mark] at hnot
  simp at hnot

/-- **Calls bind tighter than every operator,** in every state of the lexer and however many
frames there are.  An operand is read with all the calls that follow it, so that no bracket is
left after it; an operation ends after an operand, and so the calls after a whole expression find
nothing to do and leave term and lexer as they are. -/
theorem tightCalls (frames : Nat) (l : Lexer) : TightCalls frames l := by
  have hinner (k j : Nat) := consumes_nested frames (j + k)
  have hargument := consumes_nested frames 3
  refine ⟨fun k e l' h => ?_, fun k threshold e l' h => ?_, fun e l' => ?_, fun e l' h => ?_, ?_⟩
  · exact Lexer.noCall_of_read (consumes_atom (hinner k))
      (fun _ _ => not_opens_of_atom (hinner k)) h
  · exact Lexer.noCall_of_read (consumes_operationAbove (hinner k) threshold)
      (fun _ _ => not_opens_of_operationAbove (hinner k)) h
  · exact Lexer.read_next (consumes_operationAbove (hinner 2) 0) (consumes_allCalls hargument)
  · obtain ⟨hread, -⟩ := Lexer.state_of_read (consumes_operationAbove (hinner 2) 0) h
    exact Lexer.read_of_idle h (calls_of_operationAbove (hinner 2) hread hargument)
  · rw [expression_succ]

/-- A lexer that looks at a name, before calls and operators of two precedences. -/
def callSample : Lexer := ⟨.ofString "(x)(y) * g() + h(z)", some (.name "f")⟩

/-- The tokens still to come at the sample. -/
def callTokens : List Token :=
  [.name "f", .mark .leftParen, .name "x", .mark .rightParen, .mark .leftParen, .name "y",
    .mark .rightParen, .operator "*", .name "g", .mark .leftParen, .mark .rightParen,
    .operator "+", .name "h", .mark .leftParen, .name "z", .mark .rightParen]

/-- The first operand of the sample. -/
def calledTwice : Term := .call (.call (.var "f") [.var "x"]) [.var "y"]

/-- Its first two operands. -/
def calledProduct : Term := .binary .mul calledTwice (.call (.var "g") [])

/-- All its operands. -/
def calledSum : Term := .binary .add calledProduct (.call (.var "h") [.var "z"])

/-- At the sample the operand ends before `*`, what binds tighter than `+` ends before `+`, and
the whole expression at the end of the text. -/
theorem tightCalls_callSample :
    ∃ l₁ l₂ l₃ : Lexer, l₁.slot = some (.operator "*") ∧ l₂.slot = some (.operator "+") ∧
      callSample.read (atom ((nested 8).below 3)) = .ok (calledTwice, l₁) ∧ l₁.NoCall ∧
      callSample.read (operationAbove 10 ((nested 8).below 2)) = .ok (calledProduct, l₂) ∧
      l₂.NoCall ∧
      callSample.read (operationAbove 0 ((nested 8).below 2)) = .ok (calledSum, l₃) ∧ l₃.NoCall ∧
      l₃.read (fun ts => calls (nested 8 3) ts calledSum ts) = .ok (calledSum, l₃) ∧
      callSample.read (expression 9) = .ok (calledSum, l₃) := by
  have hahead : callSample.ahead = callTokens := by decide +kernel
  -- the places up to which the three readers go, and the token at each
  have hlook₁ : callSample.lookPast 7 = (.ok (some (.operator "*")),
      ⟨⟨" g() + h(z)".toList, ⟨8, 1, 8⟩⟩, some (.operator "*")⟩) := by
    decide +kernel
  have hlook₂ : callSample.lookPast 11 = (.ok (some (.operator "+")),
      ⟨⟨" h(z)".toList, ⟨14, 1, 14⟩⟩, some (.operator "+")⟩) := by
    decide +kernel
  have hlook₃ : callSample.lookPast 16 = (.ok none, ⟨⟨[], ⟨19, 1, 19⟩⟩, none⟩) := by
    decide +kernel
  have hread₁ : callSample.read (atom ((nested 8).below 3)) = .ok (calledTwice, _) :=
    Lexer.read_eq_ok_iff.2
      ⟨callTokens.drop 7, _, by rw [hahead]; rfl, by rw [hahead]; exact hlook₁⟩
  have hread₂ : callSample.read (operationAbove 10 ((nested 8).below 2)) = .ok (calledProduct, _) :=
    Lexer.read_eq_ok_iff.2
      ⟨callTokens.drop 11, _, by rw [hahead]; rfl, by rw [hahead]; exact hlook₂⟩
  have hread₃ : callSample.read (operationAbove 0 ((nested 8).below 2)) = .ok (calledSum, _) :=
    Lexer.read_eq_ok_iff.2
      ⟨callTokens.drop 16, _, by rw [hahead]; rfl, by rw [hahead]; exact hlook₃⟩
  have htight := tightCalls 8 callSample
  exact ⟨_, _, _, rfl, rfl, hread₁, htight.atom 3 _ _ hread₁, hread₂,
    htight.operation 2 10 _ _ hread₂, hread₃, htight.operation 2 0 _ _ hread₃,
    htight.unwrapped _ _ hread₃, htight.expression.trans hread₃⟩

end Lamlet
