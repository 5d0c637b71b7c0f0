import Mathlib.Data.List.Chain
import Lamlet.Proofs.Shell.Diagnostics

/-!
# The call stack of the reader

Readers call each other, and loops call themselves.  Whatever the tokens are, each call
leaves fewer tokens than its caller had, or goes to a reader of a lower rank; thus no stack
of calls is longer than a multiple of the number of tokens.  The depth limit counts the frames
of the readers on the stack, and is looked at where an expression starts: it is met if and only
if some stack that comes to an expression takes more frames than there are.

## Main definitions

* `Activation` — a reader at work on some tokens.
* `Enters` — a reader calls another one, as the definitions of the readers have it.
* `Activation.weight` — a number that falls with each call.
* `Activation.frames`, `stackFrames` — the frames of a reader, and those of a stack of calls.
* `ToExpression` — a stack comes to an expression.
* `Activation.Fails` — a reader runs out of frames.
* `DepthBound` — what a bound on the depth of reading a text promises.

## Main results

* `Enters.weight_lt`, `length_le_weight` — **every stack of calls is bounded by the weight
  of its first call.**
* `Enters.weight_add_le`, `stackFrames_le_weight` — **and so are its frames.**
* `Activation.fails_iff_stack` — a reader runs out of frames if and only if it comes to an
  expression with a stack that takes more.
* `exists_depthBound` — **the depth of reading is linear in the number of tokens.**
-/

namespace Lamlet

namespace Grammar

/-! ### Calls -/

/-- A reader at work, with the tokens that are left when it starts. -/
inductive Activation where
  /-- The expressions of a program. -/
  | program (ts : List Token)
  /-- An expression. -/
  | expression (ts : List Token)
  /-- Operands with operators between them. -/
  | operation (ts : List Token)
  /-- An operand with the calls that follow it. -/
  | atom (ts : List Token)
  /-- An operand without them. -/
  | primary (ts : List Token)
  /-- The rest of a conditional. -/
  | conditional (ts : List Token)
  /-- The rest of a function. -/
  | function (ts : List Token)
  /-- A row of expressions. -/
  | row (start close separator : Punctuation) (ts : List Token)
  /-- The items of a row after the first one. -/
  | items (close separator : Punctuation) (ts : List Token)
  /-- A row of parameters. -/
  | parameters (ts : List Token)
  /-- The parameters after the first one. -/
  | names (ts : List Token)
  /-- The calls that follow an operand. -/
  | calls (callee : Term) (ts : List Token)
  /-- The operators that follow an operand. -/
  | climb (threshold : Nat) (left : Term) (ts : List Token)

/-- A reader calls another one.  There is one constructor for each call in the definitions
of the readers, with what the calls before it returned; the next round of a loop counts as
a call. -/
inductive Enters : Activation → Activation → Prop where
  | programExpression {t : Token} {ts : List Token} :
      Enters (.program (t :: ts)) (.expression (t :: ts))
  | programRest {t : Token} {ts ts₁ ts₂ : List Token} {e : Term} :
      unlimited (t :: ts) = .ok (e, ts₁) → expectMark .semicolon ts₁ = .ok ts₂ →
      Enters (.program (t :: ts)) (.program ts₂)
  | operation {ts : List Token} : Enters (.expression ts) (.operation ts)
  | operationCalls {ts ts₁ : List Token} {e : Term} :
      Grammar.operation unlimited ts = .ok (e, ts₁) → Enters (.expression ts) (.calls e ts₁)
  | atom {ts : List Token} : Enters (.operation ts) (.atom ts)
  | operators {ts ts₁ : List Token} {left : Term} :
      Grammar.atom unlimited ts = .ok (left, ts₁) → Enters (.operation ts) (.climb 0 left ts₁)
  | primary {ts : List Token} : Enters (.atom ts) (.primary ts)
  | primaryCalls {ts ts₁ : List Token} {e : Term} :
      Grammar.primary unlimited ts = .ok (e, ts₁) → Enters (.atom ts) (.calls e ts₁)
  | grouped {ts : List Token} : Enters (.primary (.mark .leftParen :: ts)) (.expression ts)
  | block {ts : List Token} :
      Enters (.primary (.mark .leftBrace :: ts))
        (.row .leftBrace .rightBrace .semicolon (.mark .leftBrace :: ts))
  | conditional {ts : List Token} : Enters (.primary (.keyword .ifWord :: ts)) (.conditional ts)
  | function {k : Keyword} {ts : List Token} :
      k = .lambdaWord ∨ k = .lambdaLetter → Enters (.primary (.keyword k :: ts)) (.function ts)
  | condition {ts : List Token} : Enters (.conditional ts) (.expression ts)
  | consequent {ts ts₁ ts₂ : List Token} {c : Term} :
      unlimited ts = .ok (c, ts₁) → expectBranch ts₁ = .ok ts₂ →
      Enters (.conditional ts) (.expression ts₂)
  | alternative {ts ts₁ ts₂ ts₃ : List Token} {c b : Term} :
      unlimited ts = .ok (c, ts₁) → expectBranch ts₁ = .ok ts₂ →
      unlimited ts₂ = .ok (b, .keyword .elseWord :: ts₃) →
      Enters (.conditional ts) (.expression ts₃)
  | parameters {ts : List Token} : Enters (.function ts) (.parameters ts)
  | body {ts ts₁ : List Token} {ps : List String} :
      delimited .leftParen .rightParen .comma parameter ts = .ok (ps, ts₁) →
      Enters (.function ts) (.expression ts₁)
  | names {ts ts₁ ts₂ : List Token} {p : String} :
      expectMark .leftParen ts = .ok ts₁ → opens .rightParen ts₁ = false →
      parameter ts₁ = .ok (p, ts₂) → Enters (.parameters ts) (.names ts₂)
  | moreNames {ts ts₁ ts₂ : List Token} {p : String} :
      opens .rightParen ts = false → expectMark .comma ts = .ok ts₁ →
      parameter ts₁ = .ok (p, ts₂) → Enters (.names ts) (.names ts₂)
  | firstItem {start close separator : Punctuation} {ts ts₁ : List Token} :
      expectMark start ts = .ok ts₁ → opens close ts₁ = false →
      Enters (.row start close separator ts) (.expression ts₁)
  | items {start close separator : Punctuation} {ts ts₁ ts₂ : List Token} {x : Term} :
      expectMark start ts = .ok ts₁ → opens close ts₁ = false → unlimited ts₁ = .ok (x, ts₂) →
      Enters (.row start close separator ts) (.items close separator ts₂)
  | item {close separator : Punctuation} {ts ts₁ : List Token} :
      opens close ts = false → expectMark separator ts = .ok ts₁ →
      Enters (.items close separator ts) (.expression ts₁)
  | moreItems {close separator : Punctuation} {ts ts₁ ts₂ : List Token} {x : Term} :
      opens close ts = false → expectMark separator ts = .ok ts₁ →
      unlimited ts₁ = .ok (x, ts₂) →
      Enters (.items close separator ts) (.items close separator ts₂)
  | arguments {callee : Term} {ts : List Token} :
      opens .leftParen ts = true →
      Enters (.calls callee ts) (.row .leftParen .rightParen .comma ts)
  | moreCalls {callee : Term} {ts ts₁ : List Token} {args : List Term} :
      opens .leftParen ts = true →
      delimited .leftParen .rightParen .comma unlimited ts = .ok (args, ts₁) →
      Enters (.calls callee ts) (.calls (.call callee args) ts₁)
  | operand {threshold : Nat} {left : Term} {ts rest : List Token} {op : Infix} :
      nextInfix? threshold ts = some (op, rest) → Enters (.climb threshold left ts) (.atom rest)
  | tighter {threshold : Nat} {left right : Term} {ts rest ts₁ : List Token} {op : Infix} :
      nextInfix? threshold ts = some (op, rest) →
      Grammar.atom unlimited rest = .ok (right, ts₁) →
      Enters (.climb threshold left ts) (.climb op.precedence right ts₁)
  | moreOperators {threshold : Nat} {left right right' : Term} {ts rest ts₁ ts₂ : List Token}
      {op : Infix} :
      nextInfix? threshold ts = some (op, rest) →
      Grammar.atom unlimited rest = .ok (right, ts₁) →
      Grammar.climb unlimited ts₁ op.precedence right ts₁ = .ok (right', ts₂) →
      Enters (.climb threshold left ts) (.climb threshold (join op left right') ts₂)

/-! ### The frames of a stack -/

namespace Activation

/-- The frames that a reader is called with. -/
def frames : Activation → Nat
  | expression _ => 1
  | operation _ => 2
  | atom _ => 1
  | primary _ => 2
  | conditional _ => 1
  | function _ => 1
  | row _ _ _ _ => 2
  | parameters _ => 1
  | calls _ _ => 1
  | climb _ _ _ => 1
  | program _ => 0
  | items _ _ _ => 0
  | names _ => 0

/-- The frames of a reader below those of one that it calls.  The next round of a loop stands in
the frames of the loop; a climb that does not keep the threshold is no next round. -/
def framesTo : Activation → Activation → Nat
  | calls _ _, calls _ _ => 0
  | climb threshold _ _, climb threshold' _ _ => if threshold = threshold' then 0 else 1
  | a, _ => a.frames

/-- Whether an expression is read. -/
def isExpression : Activation → Bool
  | expression _ => true
  | _ => false

end Activation

/-- The frames of a stack of calls. -/
def stackFrames : List Activation → Nat
  | [] => 0
  | [a] => a.frames
  | a :: b :: stack => a.framesTo b + stackFrames (b :: stack)

/-! ### Every call makes progress -/

namespace Activation

/-- The tokens that are left. -/
def tokens : Activation → List Token
  | program ts => ts
  | expression ts => ts
  | operation ts => ts
  | atom ts => ts
  | primary ts => ts
  | conditional ts => ts
  | function ts => ts
  | row _ _ _ ts => ts
  | items _ _ ts => ts
  | parameters ts => ts
  | names ts => ts
  | calls _ ts => ts
  | climb _ _ ts => ts

/-- Calls that consume nothing go to readers of a lower rank, lower by the frames of the caller
at least. -/
def rank : Activation → Nat
  | program _ => 9
  | conditional _ => 9
  | expression _ => 8
  | operation _ => 7
  | atom _ => 5
  | primary _ => 4
  | calls _ _ => 3
  | function _ => 2
  | row _ _ _ _ => 2
  | climb _ _ _ => 1
  | parameters _ => 1
  | items _ _ _ => 0
  | names _ => 0

/-- A token counts for more than what ranks can rise by. -/
def weight (a : Activation) : Nat := 9 * a.tokens.length + a.rank

theorem frames_le_weight (a : Activation) : a.frames ≤ a.weight := by
  have hrank : a.frames ≤ a.rank := by cases a <;> simp [frames, rank]
  exact Nat.le_trans hrank (Nat.le_add_left _ _)

end Activation

theorem length_of_parameter {ts rest : List Token} {p : String}
    (h : parameter ts = .ok (p, rest)) : rest.length < ts.length := by
  obtain ⟨w, ⟨n, rfl⟩, rfl⟩ := consumes_parameter h
  simp

theorem length_of_nextInfix? {threshold : Nat} {ts rest : List Token} {op : Infix}
    (h : nextInfix? threshold ts = some (op, rest)) : rest.length < ts.length := by
  obtain ⟨symbol, rfl, -, -⟩ := eq_of_nextInfix? h
  simp

/-- A call leaves fewer tokens than its caller had, or no more of them and goes to a reader
of a lower rank; it is lower by as much as the frames that the caller has below it. -/
theorem Enters.progress {a b : Activation} (h : Enters a b) :
    b.tokens.length < a.tokens.length ∨
      b.tokens.length ≤ a.tokens.length ∧ b.rank < a.rank ∧ b.rank + a.framesTo b ≤ a.rank := by
  -- the rank falls where a reader only hands its tokens on to the next one
  cases h with
  | programExpression => exact .inr ⟨Nat.le_refl _, of_decide_eq_true rfl⟩
  | programRest he hmark =>
    have hle := consumes_unlimited.length_le he
    have hlt := length_of_expectMark hmark
    simp only [Activation.tokens]
    omega
  | operation => exact .inr ⟨Nat.le_refl _, of_decide_eq_true rfl⟩
  | operationCalls he =>
    have hconsumes := consumes_operation (fun _ => consumes_unlimited)
    exact .inr ⟨hconsumes.length_le he, of_decide_eq_true rfl⟩
  | atom => exact .inr ⟨Nat.le_refl _, of_decide_eq_true rfl⟩
  | operators he =>
    exact .inr ⟨(consumes_atom fun _ => consumes_unlimited).length_le he, of_decide_eq_true rfl⟩
  | primary => exact .inr ⟨Nat.le_refl _, of_decide_eq_true rfl⟩
  | primaryCalls he =>
    exact .inr ⟨(consumes_primary fun _ => consumes_unlimited).length_le he, of_decide_eq_true rfl⟩
  | grouped => exact .inl (Nat.lt_succ_self _)
  | block => exact .inr ⟨Nat.le_refl _, of_decide_eq_true rfl⟩
  | conditional => exact .inl (Nat.lt_succ_self _)
  | function => exact .inl (Nat.lt_succ_self _)
  | condition => exact .inr ⟨Nat.le_refl _, of_decide_eq_true rfl⟩
  | consequent hc hbranch =>
    have hle := consumes_unlimited.length_le hc
    have hle' := length_le_of_expectBranch hbranch
    exact .inr ⟨Nat.le_trans hle' hle, of_decide_eq_true rfl⟩
  | alternative hc hbranch hb =>
    have hle := consumes_unlimited.length_le hc
    have hle' := length_le_of_expectBranch hbranch
    have hlt := consumes_unlimited.length_le hb
    simp only [Activation.tokens, List.length_cons] at hlt ⊢
    omega
  | parameters => exact .inr ⟨Nat.le_refl _, of_decide_eq_true rfl⟩
  | body hps => exact .inl (length_of_delimited consumes_parameter hps)
  | names hmark _ hp =>
    have hlt := length_of_expectMark hmark
    have hlt' := length_of_parameter hp
    simp only [Activation.tokens]
    omega
  | moreNames _ hmark hp =>
    have hlt := length_of_expectMark hmark
    have hlt' := length_of_parameter hp
    simp only [Activation.tokens]
    omega
  | firstItem hmark _ =>
    have hlt := length_of_expectMark hmark
    simp only [Activation.tokens]
    omega
  | items hmark _ hx =>
    have hlt := length_of_expectMark hmark
    have hle := consumes_unlimited.length_le hx
    simp only [Activation.tokens]
    omega
  | item _ hmark =>
    have hlt := length_of_expectMark hmark
    simp only [Activation.tokens]
    omega
  | moreItems _ hmark hx =>
    have hlt := length_of_expectMark hmark
    have hle := consumes_unlimited.length_le hx
    simp only [Activation.tokens]
    omega
  | arguments => exact .inr ⟨Nat.le_refl _, of_decide_eq_true rfl⟩
  | moreCalls _ hargs => exact .inl (length_of_delimited consumes_unlimited hargs)
  | operand hop => exact .inl (length_of_nextInfix? hop)
  | tighter hop hright =>
    have hlt := length_of_nextInfix? hop
    have hle := (consumes_atom fun _ => consumes_unlimited).length_le hright
    exact .inl (Nat.lt_of_le_of_lt hle hlt)
  | moreOperators hop hright hclimb =>
    have hlt := length_of_nextInfix? hop
    have hle := (consumes_atom fun _ => consumes_unlimited).length_le hright
    have hle' := length_le_of_climb (fun _ => consumes_unlimited) hclimb
    exact .inl (Nat.lt_of_le_of_lt (Nat.le_trans hle' hle) hlt)

/-- However many tokens are consumed, the rank rises by less than a token counts for. -/
theorem Enters.rank_lt {a b : Activation} (h : Enters a b) :
    b.rank < a.rank + 9 ∧ b.rank + a.framesTo b ≤ a.rank + 9 := by
  cases h <;> simp [Activation.rank, Activation.framesTo.eq_def, Activation.frames]
  -- one climb in another, which takes a frame or goes on with the same threshold
  split <;> omega

theorem Enters.weight_lt {a b : Activation} (h : Enters a b) : b.weight < a.weight := by
  have hrank := h.rank_lt
  unfold Activation.weight
  rcases h.progress with hfewer | ⟨hle, hlower, -⟩
  · omega
  · omega

theorem Enters.weight_add_le {a b : Activation} (h : Enters a b) :
    b.weight + a.framesTo b ≤ a.weight := by
  have hrank := h.rank_lt
  unfold Activation.weight
  rcases h.progress with hfewer | ⟨hle, -, hlower⟩
  · omega
  · omega

/-- **No stack of calls is higher than the weight of its first call.**  A call either takes a
token away, which counts for more than the rank can rise by, or leads to a reader of lower rank on
the same tokens. -/
theorem length_le_weight {a : Activation} {stack : List Activation}
    (h : List.IsChain Enters (a :: stack)) : stack.length ≤ a.weight := by
  induction stack generalizing a with
  | nil => exact Nat.zero_le _
  | cons b stack ih =>
    obtain ⟨hcall, hrest⟩ := List.isChain_cons_cons.1 h
    exact Nat.lt_of_le_of_lt (ih hrest) hcall.weight_lt

/-- **Nor does it take more frames.**  A call lowers the weight at least by the frames that it
takes, so the bound on the height bounds the frames by the same induction. -/
theorem stackFrames_le_weight {a : Activation} {stack : List Activation}
    (h : List.IsChain Enters (a :: stack)) : stackFrames (a :: stack) ≤ a.weight := by
  induction stack generalizing a with
  | nil => exact a.frames_le_weight
  | cons b stack ih =>
    obtain ⟨hcall, hrest⟩ := List.isChain_cons_cons.1 h
    calc stackFrames (a :: b :: stack)
      _ = a.framesTo b + stackFrames (b :: stack) := rfl
      _ ≤ a.framesTo b + b.weight := Nat.add_le_add_left (ih hrest) _
      _ ≤ a.weight := by
        rw [Nat.add_comm]
        exact hcall.weight_add_le

/-! ### Running out of frames -/

/-- A stack of calls that comes to an expression, where the depth limit is looked at. -/
def ToExpression (stack : List Activation) : Prop := ∃ ts, stack.getLast? = some (.expression ts)

theorem stackFrames_pos {stack : List Activation} (h : ToExpression stack) :
    0 < stackFrames stack := by
  obtain ⟨ts, hlast⟩ := h
  induction stack with
  | nil => cases hlast
  | cons a stack ih =>
    cases stack with
    | nil =>
      obtain rfl := Option.some.inj hlast
      exact Nat.one_pos
    | cons b stack =>
      rw [List.getLast?_cons_cons] at hlast
      exact Nat.lt_of_lt_of_le (ih hlast) (Nat.le_add_left _ _)

section Steps

variable {α β : Type} {x y : Except Reject α} {f : α → Except Reject β}

/-- Reading runs out of frames in its first step or in those after it. -/
theorem Below.bind_tooDeep_iff (h : Below True x y) :
    (x >>= f) = .error .tooDeep ↔
      x = .error .tooDeep ∨ ∃ a, y = .ok a ∧ f a = .error .tooDeep := by
  rcases h with ⟨rfl, hne⟩ | ⟨-, rfl⟩
  · cases x with
    | error e => simp [Bind.bind, Except.bind]
    | ok a => simp [Bind.bind, Except.bind]
  · simp [Bind.bind, Except.bind]

/-- The same after a step that reads no expression. -/
theorem Below.bind_tooDeep_iff_of_self (h : Below False x x) :
    (x >>= f) = .error .tooDeep ↔ ∃ a, x = .ok a ∧ f a = .error .tooDeep := by
  rcases h with ⟨-, hne⟩ | ⟨hfalse, -⟩
  · rw [(Below.rfl_of_ne hne).bind_tooDeep_iff, or_iff_right hne]
  · exact hfalse.elim

theorem pure_ne_tooDeep (b : β) : (pure b : Except Reject β) ≠ .error .tooDeep := nofun

/-- The same before steps that read no expression. -/
theorem bind_tooDeep_iff_of_ne (h : ∀ a, f a ≠ .error .tooDeep) :
    (x >>= f) = .error .tooDeep ↔ x = .error .tooDeep := by
  cases x with
  | error e => simp [Bind.bind, Except.bind]
  | ok a => simp [Bind.bind, Except.bind, h a]

end Steps

namespace Activation

/-- The reader runs out of frames, if there are so many for it and for all that it calls. -/
def Fails (frames : Nat) : Activation → Prop
  | program ts => Grammar.program frames ts = .error .tooDeep
  | expression ts => Grammar.expression frames ts = .error .tooDeep
  | operation ts => Grammar.operation ((nested frames).below 2) ts = .error .tooDeep
  | atom ts => Grammar.atom ((nested frames).below 1) ts = .error .tooDeep
  | primary ts => Grammar.primary ((nested frames).below 2) ts = .error .tooDeep
  | conditional ts => Grammar.conditional (nested frames 1) ts = .error .tooDeep
  | function ts => Grammar.function (nested frames 1) ts = .error .tooDeep
  | row start close separator ts =>
    delimited start close separator (nested frames 2) ts = .error .tooDeep
  | items close separator ts =>
    moreItems close separator (nested frames 0) ts ts = .error .tooDeep
  | parameters _ => False
  | names _ => False
  | calls callee ts => Grammar.calls (nested frames 3) ts callee ts = .error .tooDeep
  | climb threshold left ts =>
    Grammar.climb ((nested frames).below 1) ts threshold left ts = .error .tooDeep

/-- A reader that it calls runs out of frames, as there are so many for both. -/
def CallFails (frames : Nat) (a : Activation) : Prop :=
  ∃ b, Enters a b ∧ b.Fails (frames - a.framesTo b)

end Activation

/-! A reader runs out of frames if and only if one that it calls does.  The steps before a call
return what they return without a limit, as `Enters` has it, or run out of frames themselves. -/

section Calls

variable (frames : Nat) (ts : List Token)

theorem fails_expression_iff :
    (Activation.expression ts).Fails (frames + 1) ↔
      (Activation.expression ts).CallFails (frames + 1) := by
  -- within the limit an operation is read as it is without one, or it runs out of frames
  have hbelow : Below True (operation ((nested frames).below 2) ts) (operation unlimited ts) :=
    operation_below (fun k => consumes_nested frames (k + 2))
      (fun k ts _ => nested_below_unlimited frames (k + 2) ts) (Nat.le_add_right (8 * ts.length) 2)
  constructor
  · intro h
    rcases hbelow.bind_tooDeep_iff.1 h with hoperation | ⟨⟨e, ts₁⟩, he, hcalls⟩
    · exact ⟨_, .operation, hoperation⟩
    · exact ⟨_, .operationCalls he, hcalls⟩
  · rintro ⟨b, henters, hb⟩
    cases henters with
    | operation => exact hbelow.bind_tooDeep_iff.2 (.inl hb)
    | operationCalls he => exact hbelow.bind_tooDeep_iff.2 (.inr ⟨_, he, hb⟩)

theorem fails_operation_iff :
    (Activation.operation ts).Fails frames ↔ (Activation.operation ts).CallFails frames := by
  have hbelow : Below True (atom ((nested (frames - 2)).below 1) ts) (atom unlimited ts) := by
    rw [below_nested]
    exact atom_below_unlimited _ ts
  simp only [Activation.Fails, below_nested frames 2]
  constructor
  · intro h
    rcases hbelow.bind_tooDeep_iff.1 h with hatom | ⟨⟨left, ts₁⟩, hleft, hclimb⟩
    · exact ⟨_, .atom, hatom⟩
    · exact ⟨_, .operators hleft, hclimb⟩
  · rintro ⟨b, henters, hb⟩
    cases henters with
    | atom => exact hbelow.bind_tooDeep_iff.2 (.inl hb)
    | operators hleft => exact hbelow.bind_tooDeep_iff.2 (.inr ⟨_, hleft, hb⟩)

theorem fails_atom_iff :
    (Activation.atom ts).Fails frames ↔ (Activation.atom ts).CallFails frames := by
  have hbelow : Below True (primary ((nested (frames - 1)).below 2) ts) (primary unlimited ts) :=
    primary_below (fun k => consumes_nested _ (k + 2))
      (fun k ts _ => nested_below_unlimited _ (k + 2) ts) (Nat.le_add_right (8 * ts.length) 5)
  simp only [Activation.Fails, below_nested frames 1]
  constructor
  · intro h
    rcases hbelow.bind_tooDeep_iff.1 h with hprimary | ⟨⟨e, ts₁⟩, he, hcalls⟩
    · exact ⟨_, .primary, hprimary⟩
    · exact ⟨_, .primaryCalls he, hcalls⟩
  · rintro ⟨b, henters, hb⟩
    cases henters with
    | primary => exact hbelow.bind_tooDeep_iff.2 (.inl hb)
    | primaryCalls he => exact hbelow.bind_tooDeep_iff.2 (.inr ⟨_, he, hb⟩)

theorem fails_primary_iff :
    (Activation.primary ts).Fails frames ↔ (Activation.primary ts).CallFails frames := by
  -- what follows the expression in a group needs no frame
  have hgrouped : ∀ p : Term × List Token,
      (do let ts ← expectMark .rightParen p.2; return (p.1, ts) : Except Reject (Term × List Token))
        ≠ .error .tooDeep := by
    intro p h
    obtain ⟨ts, -, hpure⟩ := (expectMark_below _ _).bind_tooDeep_iff_of_self.1 h
    cases hpure
  simp only [Activation.Fails, below_nested]
  constructor
  · intro h
    unfold primary at h
    split at h
    · exact ⟨_, .grouped, (bind_tooDeep_iff_of_ne hgrouped).1 h⟩
    · exact ⟨_, .block, (bind_tooDeep_iff_of_ne fun _ => pure_ne_tooDeep _).1 h⟩
    · exact ⟨_, .conditional, h⟩
    · cases h
    · cases h
    · exact ⟨_, .function (.inl rfl), h⟩
    · exact ⟨_, .function (.inr rfl), h⟩
    · cases h
    · cases h
    · cases h
    · cases h
  · rintro ⟨b, henters, hb⟩
    cases henters with
    | grouped => exact (bind_tooDeep_iff_of_ne hgrouped).2 hb
    | block => exact (bind_tooDeep_iff_of_ne fun _ => pure_ne_tooDeep _).2 hb
    | conditional => exact hb
    | function hk =>
      rcases hk with rfl | rfl
      · exact hb
      · exact hb

theorem fails_conditional_iff :
    (Activation.conditional ts).Fails frames ↔ (Activation.conditional ts).CallFails frames := by
  have hinner := expression_below_unlimited (frames - 1)
  simp only [Activation.Fails, nested_eq]
  constructor
  · intro h
    rcases (hinner ts).bind_tooDeep_iff.1 h with hcondition | ⟨⟨c, ts₁⟩, hc, h⟩
    · exact ⟨_, .condition, hcondition⟩
    -- what stands between the parts needs no frame
    obtain ⟨ts₂, hbranch, h⟩ := (expectBranch_below ts₁).bind_tooDeep_iff_of_self.1 h
    rcases (hinner ts₂).bind_tooDeep_iff.1 h with hconsequent | ⟨⟨b, ts₃⟩, hb, h⟩
    · exact ⟨_, .consequent hc hbranch, hconsequent⟩
    simp only at h
    split at h
    · next ts₄ =>
      rw [bind_tooDeep_iff_of_ne fun _ => pure_ne_tooDeep _] at h
      exact ⟨_, .alternative hc hbranch hb, h⟩
    · cases h
  · rintro ⟨b, henters, hb⟩
    cases henters with
    | condition => exact (hinner ts).bind_tooDeep_iff.2 (.inl hb)
    | consequent hc hbranch =>
      refine (hinner ts).bind_tooDeep_iff.2 (.inr ⟨_, hc, ?_⟩)
      refine (expectBranch_below _).bind_tooDeep_iff_of_self.2 ⟨_, hbranch, ?_⟩
      exact (hinner _).bind_tooDeep_iff.2 (.inl hb)
    | alternative hc hbranch ht =>
      refine (hinner ts).bind_tooDeep_iff.2 (.inr ⟨_, hc, ?_⟩)
      refine (expectBranch_below _).bind_tooDeep_iff_of_self.2 ⟨_, hbranch, ?_⟩
      refine (hinner _).bind_tooDeep_iff.2 (.inr ⟨_, ht, ?_⟩)
      exact (bind_tooDeep_iff_of_ne fun _ => pure_ne_tooDeep _).2 hb

theorem fails_function_iff :
    (Activation.function ts).Fails frames ↔ (Activation.function ts).CallFails frames := by
  -- a row of names needs no frame
  have hparameters : Below False (delimited .leftParen .rightParen .comma parameter ts)
      (delimited .leftParen .rightParen .comma parameter ts) :=
    delimited_below consumes_parameter (fun ts _ => parameter_below ts) _ _ _ (Nat.le_refl _)
  simp only [Activation.Fails, nested_eq]
  constructor
  · intro h
    obtain ⟨⟨ps, ts₁⟩, hps, h⟩ := hparameters.bind_tooDeep_iff_of_self.1 h
    exact ⟨_, .body hps, (bind_tooDeep_iff_of_ne fun _ => pure_ne_tooDeep _).1 h⟩
  · rintro ⟨b, henters, hb⟩
    cases henters with
    | parameters => exact hb.elim
    | body hps =>
      refine hparameters.bind_tooDeep_iff_of_self.2 ⟨_, hps, ?_⟩
      exact (bind_tooDeep_iff_of_ne fun _ => pure_ne_tooDeep _).2 hb

theorem fails_items_iff (close separator : Punctuation) :
    (Activation.items close separator ts).Fails frames ↔
      (Activation.items close separator ts).CallFails frames := by
  have hinner := expression_below_unlimited frames
  simp only [Activation.Fails]
  rw [moreItems_eq (consumes_nested frames 0)]
  constructor
  · intro h
    split at h
    · cases h
    · next hopen =>
      rw [Bool.not_eq_true] at hopen
      obtain ⟨ts₁, hmark, h⟩ := (expectMark_below _ _).bind_tooDeep_iff_of_self.1 h
      rcases (hinner ts₁).bind_tooDeep_iff.1 h with hitem | ⟨⟨x, ts₂⟩, hx, h⟩
      · exact ⟨_, .item hopen hmark, hitem⟩
      · exact ⟨_, .moreItems hopen hmark hx,
          (bind_tooDeep_iff_of_ne fun _ => pure_ne_tooDeep _).1 h⟩
  · rintro ⟨b, henters, hb⟩
    cases henters with
    | item hopen hmark =>
      rw [if_neg (by simp [hopen])]
      refine (expectMark_below _ _).bind_tooDeep_iff_of_self.2 ⟨_, hmark, ?_⟩
      exact (hinner _).bind_tooDeep_iff.2 (.inl hb)
    | moreItems hopen hmark hx =>
      rw [if_neg (by simp [hopen])]
      refine (expectMark_below _ _).bind_tooDeep_iff_of_self.2 ⟨_, hmark, ?_⟩
      refine (hinner _).bind_tooDeep_iff.2 (.inr ⟨_, hx, ?_⟩)
      exact (bind_tooDeep_iff_of_ne fun _ => pure_ne_tooDeep _).2 hb

theorem fails_row_iff (start close separator : Punctuation) :
    (Activation.row start close separator ts).Fails frames ↔
      (Activation.row start close separator ts).CallFails frames := by
  have hinner := expression_below_unlimited (frames - 2)
  simp only [Activation.Fails, nested_eq]
  constructor
  · intro h
    obtain ⟨ts₁, hmark, h⟩ := (expectMark_below _ _).bind_tooDeep_iff_of_self.1 h
    split at h
    · cases h
    · next hopen =>
      rw [Bool.not_eq_true] at hopen
      rcases (hinner ts₁).bind_tooDeep_iff.1 h with hitem | ⟨⟨x, ts₂⟩, hx, h⟩
      · exact ⟨_, .firstItem hmark hopen, hitem⟩
      · exact ⟨_, .items hmark hopen hx,
          (bind_tooDeep_iff_of_ne fun _ => pure_ne_tooDeep _).1 h⟩
  · rintro ⟨b, henters, hb⟩
    cases henters with
    | firstItem hmark hopen =>
      refine (expectMark_below _ _).bind_tooDeep_iff_of_self.2 ⟨_, hmark, ?_⟩
      rw [if_neg (by simp [hopen])]
      exact (hinner _).bind_tooDeep_iff.2 (.inl hb)
    | items hmark hopen hx =>
      refine (expectMark_below _ _).bind_tooDeep_iff_of_self.2 ⟨_, hmark, ?_⟩
      rw [if_neg (by simp [hopen])]
      refine (hinner _).bind_tooDeep_iff.2 (.inr ⟨_, hx, ?_⟩)
      exact (bind_tooDeep_iff_of_ne fun _ => pure_ne_tooDeep _).2 hb

theorem fails_calls_iff (callee : Term) :
    (Activation.calls callee ts).Fails frames ↔
      (Activation.calls callee ts).CallFails frames := by
  -- the row of arguments has the frames that the loop leaves
  have harguments : nested frames 3 = nested (frames - 1) 2 := by
    rw [nested_eq, nested_eq, Nat.sub_sub]
  have hbelow : Below True (delimited .leftParen .rightParen .comma (nested (frames - 1) 2) ts)
      (delimited .leftParen .rightParen .comma unlimited ts) :=
    delimited_below (consumes_nested _ 2) (fun ts _ => nested_below_unlimited _ 2 ts)
      _ _ _ (Nat.le_refl _)
  simp only [Activation.Fails]
  rw [calls_eq (consumes_nested frames 3), harguments]
  constructor
  · intro h
    split at h
    · next hopen =>
      rcases hbelow.bind_tooDeep_iff.1 h with hrow | ⟨⟨args, ts₁⟩, hargs, h⟩
      · exact ⟨_, .arguments hopen, hrow⟩
      · rw [← harguments] at h
        exact ⟨_, .moreCalls hopen hargs, h⟩
    · cases h
  · rintro ⟨b, henters, hb⟩
    cases henters with
    | arguments hopen =>
      rw [if_pos hopen]
      exact hbelow.bind_tooDeep_iff.2 (.inl hb)
    | moreCalls hopen hargs =>
      rw [if_pos hopen]
      refine hbelow.bind_tooDeep_iff.2 (.inr ⟨_, hargs, ?_⟩)
      rw [← harguments]
      exact hb

theorem fails_climb_iff (threshold : Nat) (left : Term) :
    (Activation.climb threshold left ts).Fails frames ↔
      (Activation.climb threshold left ts).CallFails frames := by
  have hatom (rest : List Token) :
      Below True (atom ((nested (frames - 1)).below 1) rest) (atom unlimited rest) := by
    rw [below_nested]
    exact atom_below_unlimited _ rest
  have hclimb (threshold : Nat) (left : Term) (ts : List Token) :
      Below True (climb ((nested (frames - 1)).below 1) ts threshold left ts)
        (climb unlimited ts threshold left ts) :=
    climb_below (fun k => consumes_nested _ (k + 1))
      (fun k ts _ => nested_below_unlimited _ (k + 1) ts) _ _ _ ts
      (Nat.le_add_right (8 * ts.length) 3)
  -- a climb in this one has a frame of its own, and the next round of this one has not
  have htighter {ts rest : List Token} {op : Infix} (left' : Term) (ts₁ : List Token)
      (hop : nextInfix? threshold ts = some (op, rest)) :
      (Activation.climb threshold left ts).framesTo (.climb op.precedence left' ts₁) = 1 := by
    obtain ⟨-, -, -, hlt⟩ := eq_of_nextInfix? hop
    exact if_neg (Nat.ne_of_lt hlt)
  have hround (left' : Term) (ts₁ : List Token) :
      (Activation.climb threshold left ts).framesTo (.climb threshold left' ts₁) = 0 :=
    if_pos rfl
  simp only [Activation.Fails, below_nested frames 1]
  rw [climb_eq (consumes_nested (frames - 1))]
  constructor
  · intro h
    split at h
    · cases h
    · next op rest hop =>
      rcases (hatom rest).bind_tooDeep_iff.1 h with hoperand | ⟨⟨right, ts₁⟩, hright, h⟩
      · exact ⟨_, .operand hop, hoperand⟩
      rcases (hclimb _ _ ts₁).bind_tooDeep_iff.1 h with hinside | ⟨⟨right', ts₂⟩, hright', h⟩
      · refine ⟨_, .tighter hop hright, ?_⟩
        rw [htighter _ _ hop]
        exact hinside
      · refine ⟨_, .moreOperators hop hright hright', ?_⟩
        rw [hround, Nat.sub_zero, Activation.Fails, below_nested]
        exact h
  · rintro ⟨b, henters, hb⟩
    cases henters with
    | operand hop =>
      rw [hop]
      exact (hatom _).bind_tooDeep_iff.2 (.inl hb)
    | tighter hop hright =>
      rw [htighter _ _ hop] at hb
      rw [hop]
      refine (hatom _).bind_tooDeep_iff.2 (.inr ⟨_, hright, ?_⟩)
      exact (hclimb _ _ _).bind_tooDeep_iff.2 (.inl hb)
    | moreOperators hop hright hright' =>
      rw [hround, Nat.sub_zero, Activation.Fails, below_nested] at hb
      rw [hop]
      refine (hatom _).bind_tooDeep_iff.2 (.inr ⟨_, hright, ?_⟩)
      exact (hclimb _ _ _).bind_tooDeep_iff.2 (.inr ⟨_, hright', hb⟩)

theorem fails_program_iff :
    (Activation.program ts).Fails frames ↔ (Activation.program ts).CallFails frames := by
  cases ts with
  | nil =>
    constructor
    · intro h
      cases h
    · rintro ⟨b, henters, -⟩
      cases henters
  | cons t ts =>
    have hbelow := expression_below_unlimited frames (t :: ts)
    simp only [Activation.Fails]
    rw [program_cons]
    constructor
    · intro h
      rcases hbelow.bind_tooDeep_iff.1 h with hexpression | ⟨⟨e, ts₁⟩, he, h⟩
      · exact ⟨_, .programExpression, hexpression⟩
      simp only at h
      split at h
      · cases h
      · obtain ⟨ts₂, hmark, h⟩ := (expectMark_below _ _).bind_tooDeep_iff_of_self.1 h
        exact ⟨_, .programRest he hmark,
          (bind_tooDeep_iff_of_ne fun _ => pure_ne_tooDeep _).1 h⟩
    · rintro ⟨b, henters, hb⟩
      cases henters with
      | programExpression => exact hbelow.bind_tooDeep_iff.2 (.inl hb)
      | programRest he hmark =>
        refine hbelow.bind_tooDeep_iff.2 (.inr ⟨_, he, ?_⟩)
        have hcons := eq_of_expectMark hmark
        subst hcons
        refine (expectMark_below _ _).bind_tooDeep_iff_of_self.2 ⟨_, hmark, ?_⟩
        exact (bind_tooDeep_iff_of_ne fun _ => pure_ne_tooDeep _).2 hb

end Calls

/-! ### Stacks -/

namespace Activation

/-- **A reader runs out of frames if and only if one that it calls does**, unless it is an
expression for which there is none. -/
theorem fails_iff {a : Activation} {frames : Nat} (h : a.isExpression = true → 0 < frames) :
    a.Fails frames ↔ a.CallFails frames := by
  cases a with
  | program ts => exact fails_program_iff frames ts
  | expression ts =>
    obtain ⟨frames, rfl⟩ := Nat.exists_eq_add_one.2 (h rfl)
    exact fails_expression_iff frames ts
  | operation ts => exact fails_operation_iff frames ts
  | atom ts => exact fails_atom_iff frames ts
  | primary ts => exact fails_primary_iff frames ts
  | conditional ts => exact fails_conditional_iff frames ts
  | function ts => exact fails_function_iff frames ts
  | row start close separator ts => exact fails_row_iff frames ts start close separator
  | items close separator ts => exact fails_items_iff frames ts close separator
  | calls callee ts => exact fails_calls_iff frames ts callee
  | climb threshold left ts => exact fails_climb_iff frames ts threshold left
  | parameters ts =>
    -- names do not nest, so that their readers have frames enough
    refine ⟨False.elim, ?_⟩
    rintro ⟨b, henters, hb⟩
    cases henters
    exact hb
  | names ts =>
    refine ⟨False.elim, ?_⟩
    rintro ⟨b, henters, hb⟩
    cases henters
    exact hb

/-- With no frame left an expression cannot even be started. -/
theorem fails_zero {a : Activation} (h : a.isExpression = true) : a.Fails 0 := by
  cases a with
  | expression ts => rfl
  | _ => cases h

/-- There are frames to go on with, unless there is none for an expression. -/
theorem frames_cases (a : Activation) (frames : Nat) :
    (frames = 0 ∧ a.isExpression = true) ∨ (a.isExpression = true → 0 < frames) := by
  cases frames with
  | zero =>
    cases a.isExpression with
    | false => exact .inr nofun
    | true => exact .inl ⟨rfl, rfl⟩
  | succ frames => exact .inr fun _ => Nat.succ_pos frames

theorem fails_of_stack {a : Activation} {stack : List Activation} {frames : Nat}
    (h : List.IsChain Enters (a :: stack)) (hlast : ToExpression (a :: stack))
    (hframes : frames < stackFrames (a :: stack)) : a.Fails frames := by
  induction stack generalizing a frames with
  | nil =>
    obtain ⟨ts, hlast⟩ := hlast
    obtain rfl := Option.some.inj hlast
    -- a single expression is one frame high, so none is left for it
    obtain rfl : frames = 0 := Nat.lt_one_iff.1 hframes
    exact fails_zero rfl
  | cons b stack ih =>
    obtain ⟨hcall, hrest⟩ := List.isChain_cons_cons.1 h
    rcases a.frames_cases frames with ⟨rfl, ha⟩ | ha
    · exact fails_zero ha
    · have hlast' : ToExpression (b :: stack) := by
        rwa [ToExpression, List.getLast?_cons_cons] at hlast
      have hpos := stackFrames_pos hlast'
      rw [stackFrames] at hframes
      -- what the call gets is too little for the rest of the stack
      exact (fails_iff ha).2 ⟨b, hcall, ih hrest hlast' (by omega)⟩

theorem exists_stack_of_fails {a : Activation} {frames : Nat} (h : a.Fails frames) :
    ∃ stack, List.IsChain Enters (a :: stack) ∧ ToExpression (a :: stack) ∧
      frames < stackFrames (a :: stack) := by
  -- each call has a lower weight, so following the calls that fail comes to an end
  induction hweight : a.weight using Nat.strongRecOn generalizing a frames with
  | ind n ih =>
    rcases a.frames_cases frames with ⟨rfl, ha⟩ | ha
    · cases a with
      | expression ts => exact ⟨[], List.isChain_singleton _, ⟨ts, rfl⟩, Nat.one_pos⟩
      | _ => cases ha
    · obtain ⟨b, hcall, hb⟩ := (fails_iff ha).1 h
      obtain ⟨stack, hrest, hlast, hframes⟩ := ih b.weight (hweight ▸ hcall.weight_lt) hb rfl
      refine ⟨b :: stack, List.isChain_cons_cons.2 ⟨hcall, hrest⟩, ?_, ?_⟩
      · rwa [ToExpression, List.getLast?_cons_cons]
      · rw [stackFrames]
        omega

/-- **A reader runs out of frames if and only if it comes to an expression with a stack that takes
more.**  The limit is looked at where an expression starts, so a stack that leads to none is never
too high.  Each reader runs out if and only if one that it calls does (`fails_iff`); put together
along the calls, this gives the stack. -/
theorem fails_iff_stack {a : Activation} {frames : Nat} :
    a.Fails frames ↔ ∃ stack, List.IsChain Enters (a :: stack) ∧ ToExpression (a :: stack) ∧
      frames < stackFrames (a :: stack) :=
  ⟨exists_stack_of_fails, fun ⟨_, hstack, hlast, hframes⟩ => fails_of_stack hstack hlast hframes⟩

end Activation

end Grammar

/-! ### Whole texts -/

open Grammar

/-- A stack of calls while a text is read: the first one reads the program, and each of the
others is called by the one before it. -/
def ReadingStack (source : String) (stack : List Activation) : Prop :=
  stack.head? = some (.program (tokensOf source)) ∧ stack.IsChain Enters

theorem exists_readingStack_iff {source : String} {P : List Activation → Prop} :
    (∃ stack, ReadingStack source stack ∧ P stack) ↔
      ∃ rest, List.IsChain Enters (.program (tokensOf source) :: rest) ∧
        P (.program (tokensOf source) :: rest) := by
  constructor
  · rintro ⟨stack, ⟨hhead, hchain⟩, hstack⟩
    obtain ⟨rest, rfl⟩ := List.head?_eq_some_iff.1 hhead
    exact ⟨rest, hchain, hstack⟩
  · rintro ⟨rest, hchain, hstack⟩
    exact ⟨_, ⟨rfl, hchain⟩, hstack⟩

theorem ReadingStack.length_le {source : String} {stack : List Activation}
    (h : ReadingStack source stack) : stack.length ≤ 10 * ((tokensOf source).length + 1) := by
  obtain ⟨rest, rfl⟩ := List.head?_eq_some_iff.1 h.1
  have hle : rest.length ≤ 9 * (tokensOf source).length + 9 := length_le_weight h.2
  rw [List.length_cons]
  omega

theorem ReadingStack.frames_le {source : String} {stack : List Activation}
    (h : ReadingStack source stack) : stackFrames stack ≤ 10 * ((tokensOf source).length + 1) := by
  obtain ⟨rest, rfl⟩ := List.head?_eq_some_iff.1 h.1
  have hle : stackFrames (.program (tokensOf source) :: rest) ≤ 9 * (tokensOf source).length + 9 :=
    stackFrames_le_weight h.2
  omega

theorem parse_eq_tooDeep_iff_fails {frames : Nat} {source : String} :
    parse frames source = .error .tooDeep ↔
      (Activation.program (tokensOf source)).Fails frames :=
  Lexed.parse_eq_tooDeep_iff

/-- **The depth limit is met if and only if some stack comes to an expression with more frames
than there are.** -/
theorem parse_eq_tooDeep_iff_stack {frames : Nat} {source : String} :
    parse frames source = .error .tooDeep ↔
      ∃ stack, ReadingStack source stack ∧ ToExpression stack ∧ frames < stackFrames stack := by
  rw [exists_readingStack_iff, parse_eq_tooDeep_iff_fails]
  exact Activation.fails_iff_stack

/-- With as many frames as can be needed the limit is not met. -/
theorem parse_ne_tooDeep {frames : Nat} {source : String}
    (h : 8 * (tokensOf source).length < frames) : parse frames source ≠ .error .tooDeep := by
  intro hdeep
  have hprogram : program frames (tokensOf source) = .error .tooDeep :=
    parse_eq_tooDeep_iff_fails.1 hdeep
  rw [program_eq_unlimitedProgram h] at hprogram
  exact unlimitedProgram_ne_tooDeep _ hprogram

/-- A larger limit does not change the outcome, unless the smaller one is met. -/
theorem parse_eq_of_le {frames frames' : Nat} {source : String} (hle : frames ≤ frames')
    (h : parse frames source ≠ .error .tooDeep) : parse frames' source = parse frames source := by
  have h' : parse frames' source ≠ .error .tooDeep := by
    intro hdeep
    obtain ⟨stack, hstack, hlast, hframes⟩ := parse_eq_tooDeep_iff_stack.1 hdeep
    exact h (parse_eq_tooDeep_iff_stack.2 ⟨stack, hstack, hlast, Nat.lt_of_le_of_lt hle hframes⟩)
  have houtcome := parsesTo_unlimited source
  rw [(houtcome.always frames).resolve_right h, (houtcome.always frames').resolve_right h']

/-- What a bound on the depth of reading a text promises. -/
structure DepthBound (c : Nat) (source : String) : Prop where
  /-- No stack of calls is higher than a multiple of the number of tokens. -/
  height : ∀ stack, ReadingStack source stack → stack.length ≤ c * ((tokensOf source).length + 1)
  /-- Nor does one take more frames than that. -/
  frames : ∀ stack, ReadingStack source stack →
    stackFrames stack ≤ c * ((tokensOf source).length + 1)
  /-- The depth limit is met just if some stack comes to an expression with more frames than
  there are. -/
  tooDeep : ∀ frames, parse frames source = .error .tooDeep ↔
    ∃ stack, ReadingStack source stack ∧ ToExpression stack ∧ frames < stackFrames stack
  /-- With a limit as large as the bound the text is read, or has a fault of reading. -/
  enough : ∀ frames, c * ((tokensOf source).length + 1) ≤ frames →
    (∃ es, parse frames source = .ok es) ∨
    ∃ fault place, parse frames source = .error (.fault fault place) ∧
      (fault.cause.kind = .lexical ∨ fault.cause.kind = .syntactic)
  /-- A larger limit does not change the outcome, unless the smaller one is met. -/
  stays : ∀ frames frames', frames ≤ frames' → parse frames source ≠ .error .tooDeep →
    parse frames' source = parse frames source

/-- **The depth of reading is linear in the number of tokens**, whatever the text is. -/
theorem exists_depthBound : ∃ c, ∀ source, DepthBound c source := by
  refine ⟨10, fun source => ⟨fun _ => ReadingStack.length_le, fun _ => ReadingStack.frames_le,
    fun _ => parse_eq_tooDeep_iff_stack, fun frames hframes => ?_, fun _ _ => parse_eq_of_le⟩⟩
  cases hparse : parse frames source with
  | ok es => exact .inl ⟨es, rfl⟩
  | error failure =>
    cases failure with
    | tooDeep => exact absurd hparse (parse_ne_tooDeep (by omega))
    | fault fault place =>
      refine .inr ⟨fault, place, rfl, ?_⟩
      cases (place_of_parse hparse).2 with
      | lexical why => exact .inl rfl
      | syntactic wanted found => exact .inr rfl

/-- A text that ends inside three brackets. -/
theorem exists_depthBound_openBrackets :
    ∃ c, DepthBound c "f(((x" ∧ (tokensOf "f(((x").length = 5 ∧
      parse 19 "f(((x" = .error .tooDeep ∧
      ∀ frames, 20 ≤ frames → parse frames "f(((x" = .error (.fault
        ⟨.syntactic (.mark .rightParen) none, some ⟨1, 5⟩⟩ ⟨5, 1, 5⟩) := by
  have hlex : lex "f(((x" = ⟨[⟨.name "f", ⟨1, 1, 1⟩⟩, ⟨.mark .leftParen, ⟨2, 1, 2⟩⟩,
      ⟨.mark .leftParen, ⟨3, 1, 3⟩⟩, ⟨.mark .leftParen, ⟨4, 1, 4⟩⟩, ⟨.name "x", ⟨5, 1, 5⟩⟩],
      ⟨[], ⟨5, 1, 5⟩⟩, none⟩ := by
    decide +kernel
  have hdeep : parse 19 "f(((x" = .error .tooDeep := by
    rw [parse, hlex]
    rfl
  have hparse : parse 20 "f(((x" = .error (.fault
      ⟨.syntactic (.mark .rightParen) none, some ⟨1, 5⟩⟩ ⟨5, 1, 5⟩) := by
    rw [parse, hlex]
    rfl
  obtain ⟨c, hc⟩ := exists_depthBound
  refine ⟨c, hc _, by rw [tokensOf, hlex]; rfl, hdeep, fun frames hframes => ?_⟩
  rw [(hc "f(((x").stays 20 frames hframes (by simp [hparse]), hparse]

end Lamlet
