import Lamlet.Proofs.Grammar.Limit

/-!
# One token ahead

A reader looks at the next token and at nothing behind it.  So two sequences that agree up
to some token are read in the same way until that token is consumed: if it is rejected in
the one, it is rejected in the other, whatever follows.

## Main definitions

* `leftOver` — the tokens that an outcome leaves.
* `Alike` — two outcomes that agree up to a token, unless the first one is past it.
* `OneAhead` — a reader that looks one token ahead.

## Main results

* `OneAhead.bind`, `OneAhead.next`, `OneAhead.of_head`, `OneAhead.of_budget` — how such
  readers are made.
* `oneAhead_expression` — the reader of expressions looks one token ahead.
* `program_rejects_alike` — **what follows a rejected token does not matter.**
-/

namespace Lamlet.Grammar

/-! ### Readers that look one token ahead -/

/-- The tokens that an outcome leaves. -/
def leftOver {α : Type} : Except Reject (α × List Token) → List Token
  | .ok (_, rest) => rest
  | .error (.unwanted _ rest) => rest
  | .error .tooDeep => []

/-- Two outcomes agree, up to what comes after a token that both leave; or the first one has
consumed that token. -/
inductive Alike {α : Type} (t : Token) (r r' : List Token) :
    Except Reject (α × List Token) → Except Reject (α × List Token) → Prop where
  | ok (a : α) (m : List Token) : Alike t r r' (.ok (a, m ++ t :: r)) (.ok (a, m ++ t :: r'))
  | unwanted (wanted : Wanted) (m : List Token) :
      Alike t r r' (.error (.unwanted wanted (m ++ t :: r)))
        (.error (.unwanted wanted (m ++ t :: r')))
  | past {x y : Except Reject (α × List Token)} : (leftOver x).length ≤ r.length →
      Alike t r r' x y

/-- The reader leaves no more tokens than it is given, and what it does before it consumes a
token does not depend on what follows that token. -/
structure OneAhead {α : Type} (p : Reader α) : Prop where
  shrinks : ∀ ts, (leftOver (p ts)).length ≤ ts.length
  sees : ∀ m t r r', Alike t r r' (p (m ++ t :: r)) (p (m ++ t :: r'))

namespace OneAhead

variable {α β : Type}

theorem ok (a : α) : OneAhead fun ts => .ok (a, ts) :=
  ⟨fun _ => Nat.le_refl _, fun m _ _ _ => .ok a m⟩

theorem unwanted (wanted : Wanted) :
    OneAhead (fun ts => .error (.unwanted wanted ts) : Reader α) :=
  ⟨fun _ => Nat.le_refl _, fun m _ _ _ => .unwanted wanted m⟩

theorem tooDeep : OneAhead (fun _ => .error .tooDeep : Reader α) :=
  ⟨fun _ => Nat.zero_le _, fun _ _ _ _ => .past (Nat.zero_le _)⟩

/-- Nothing is left. -/
theorem finished (a : α) : OneAhead fun _ => .ok (a, []) :=
  ⟨fun _ => Nat.zero_le _, fun _ _ _ _ => .past (Nat.zero_le _)⟩

theorem length_leftOver_bind {x : Except Reject (α × List Token)}
    {k : α × List Token → Except Reject (β × List Token)}
    (hk : ∀ a ts, (leftOver (k (a, ts))).length ≤ ts.length) :
    (leftOver (x >>= k)).length ≤ (leftOver x).length := by
  cases x with
  | ok b => exact hk b.1 b.2
  | error reject => cases reject <;> exact Nat.le_refl _

/-- One reader after another. -/
theorem bind {p : Reader α} {k : α × List Token → Except Reject (β × List Token)}
    (hp : OneAhead p) (hk : ∀ a, OneAhead fun ts => k (a, ts)) :
    OneAhead fun ts => p ts >>= k := by
  have hshrinks (x : Except Reject (α × List Token)) :
      (leftOver (x >>= k)).length ≤ (leftOver x).length :=
    length_leftOver_bind fun a ts => (hk a).shrinks ts
  refine ⟨fun ts => Nat.le_trans (hshrinks (p ts)) (hp.shrinks ts), fun m t r r' => ?_⟩
  -- the first reader saw the same in both texts, or it has gone past what they share
  have halike := hp.sees m t r r'
  generalize p (m ++ t :: r) = x at halike
  generalize p (m ++ t :: r') = y at halike
  cases halike with
  | ok a m' => exact (hk a).sees m' t r r'
  | unwanted wanted m' => exact .unwanted wanted m'
  | past hpast => exact .past (Nat.le_trans (hshrinks x) hpast)

/-- The same with a second reader that is given what the first one has read. -/
theorem next {p : Reader α} {k : α → Reader β} (hp : OneAhead p) (hk : ∀ a, OneAhead (k a)) :
    OneAhead fun ts => p ts >>= fun b => k b.1 b.2 :=
  hp.bind hk

/-- A reader after a token that is only consumed. -/
theorem bind_tokens {e : List Token → Except Reject (List Token)} {p : Reader α}
    (he : OneAhead fun ts => (e ts).map fun rest => ((), rest)) (hp : OneAhead p) :
    OneAhead fun ts => e ts >>= p := by
  have hsame : (fun ts => e ts >>= p)
      = fun ts => ((e ts).map fun rest => ((), rest)) >>= fun b => p b.2 := by
    funext ts
    cases e ts <;> rfl
  rw [hsame]
  exact he.bind fun _ => hp

/-- A reader that is chosen by the first token, which it consumes or leaves. -/
theorem of_head {p : Reader α} (hnil : (leftOver (p [])).length ≤ 0)
    (hcons : ∀ t, (∃ q : Reader α, OneAhead q ∧ ∀ ts, p (t :: ts) = q ts) ∨
      ∃ q : Reader α, OneAhead q ∧ ∀ ts, p (t :: ts) = q (t :: ts)) : OneAhead p := by
  refine ⟨fun ts => ?_, fun m t r r' => ?_⟩
  · cases ts with
    | nil => exact hnil
    | cons t ts =>
      rcases hcons t with ⟨q, hq, hp⟩ | ⟨q, hq, hp⟩
      · rw [hp]
        exact Nat.le_succ_of_le (hq.shrinks ts)
      · rw [hp]
        exact hq.shrinks (t :: ts)
  · cases m with
    | nil =>
      rcases hcons t with ⟨q, hq, hp⟩ | ⟨q, hq, hp⟩
      · -- the token is consumed
        rw [List.nil_append, hp]
        exact .past (hq.shrinks r)
      · rw [List.nil_append, List.nil_append, hp, hp]
        exact hq.sees [] t r r'
    | cons d m =>
      rcases hcons d with ⟨q, hq, hp⟩ | ⟨q, hq, hp⟩
      · rw [List.cons_append, List.cons_append, hp, hp]
        exact hq.sees m t r r'
      · rw [List.cons_append, List.cons_append, hp, hp]
        exact hq.sees (d :: m) t r r'

/-- A loop with its tokens as budget, of which only the length counts. -/
theorem of_budget {p : List Token → Reader α} (hp : ∀ budget, OneAhead (p budget))
    (hbudget : ∀ {budget budget' ts : List Token}, ts.length ≤ budget.length →
      ts.length ≤ budget'.length → p budget ts = p budget' ts) :
    OneAhead fun ts => p ts ts := by
  refine ⟨fun ts => (hp ts).shrinks ts, fun m t r r' => ?_⟩
  -- a budget that covers both sequences
  have hsame {ts : List Token} (hts : ts.length ≤ (m ++ t :: (r ++ r')).length) :
      p ts ts = p (m ++ t :: (r ++ r')) ts :=
    hbudget (Nat.le_refl _) hts
  rw [hsame (by simp), hsame (by simp)]
  exact (hp _).sees m t r r'

end OneAhead

/-! ### Single tokens -/

theorem opens_cons_of_ne {m : Punctuation} {t : Token} (h : t ≠ .mark m) (ts : List Token) :
    opens m (t :: ts) = false := by
  cases hopens : opens m (t :: ts) with
  | false => rfl
  | true =>
    obtain ⟨rest, hts⟩ := opens_iff.1 hopens
    exact absurd (List.cons.inj hts).1 h

theorem oneAhead_expectMark (m : Punctuation) :
    OneAhead fun ts => (expectMark m ts).map fun rest => ((), rest) := by
  refine .of_head (Nat.le_refl 0) fun t => ?_
  by_cases ht : t = .mark m
  · refine .inl ⟨_, .ok (), fun ts => ?_⟩
    rw [ht, expectMark_mark]
    rfl
  · refine .inr ⟨_, .unwanted (.mark m), fun ts => ?_⟩
    simp [expectMark, opens_cons_of_ne ht, Except.map]

theorem oneAhead_expectKeyword (k : Keyword) :
    OneAhead fun ts => (expectKeyword k ts).map fun rest => ((), rest) := by
  refine .of_head (Nat.le_refl 0) fun t => ?_
  by_cases ht : t = .keyword k
  · refine .inl ⟨_, .ok (), fun ts => ?_⟩
    simp [expectKeyword, ht, Except.map]
  · refine .inr ⟨_, .unwanted (.keyword k), fun ts => ?_⟩
    cases t with
    | keyword k' =>
      have hk : k' ≠ k := fun h => ht (by rw [h])
      simp [expectKeyword, hk, Except.map]
    | _ => rfl

theorem oneAhead_expectBranch :
    OneAhead fun ts => (expectBranch ts).map fun rest => ((), rest) := by
  refine .of_head (Nat.le_refl 0) fun t => ?_
  by_cases ht : t = .mark .leftBrace
  · refine .inr ⟨_, .ok (), fun ts => ?_⟩
    simp [expectBranch, ht, Except.map]
  · refine .inr ⟨_, oneAhead_expectKeyword .thenWord, fun ts => ?_⟩
    simp [expectBranch, opens_cons_of_ne ht]

theorem oneAhead_parameter : OneAhead parameter := by
  refine .of_head (Nat.le_refl 0) fun t => ?_
  cases t with
  | name n => exact .inl ⟨_, .ok n, fun _ => rfl⟩
  | _ => exact .inr ⟨_, .unwanted .parameter, fun _ => rfl⟩

/-! ### Rows -/

theorem oneAhead_moreItems {α : Type} {item : Reader α} (hitem : OneAhead item)
    (close separator : Punctuation) (budget : List Token) :
    OneAhead (moreItems close separator item budget) := by
  induction budget with
  | nil =>
    refine .of_head (Nat.le_refl 0) fun t => ?_
    by_cases ht : t = .mark close
    · refine .inl ⟨_, .ok [], fun ts => ?_⟩
      simp [moreItems, ht]
    · refine .inr ⟨_, .unwanted (.mark separator), fun ts => ?_⟩
      simp [moreItems, opens_cons_of_ne ht]
  | cons b budget ih =>
    refine .of_head (Nat.le_refl 0) fun t => ?_
    by_cases ht : t = .mark close
    · refine .inl ⟨_, .ok [], fun ts => ?_⟩
      simp [moreItems, ht]
    · have hmore := (oneAhead_expectMark separator).bind_tokens
        (hitem.next fun x => ih.next fun xs => .ok (x :: xs))
      refine .inr ⟨_, hmore, fun ts => ?_⟩
      simp only [moreItems, opens_cons_of_ne ht]
      rfl

theorem oneAhead_delimited {α : Type} {L : List Token → Prop} {item : Reader α}
    (hconsumes : Consumes L item) (hitem : OneAhead item) (start close separator : Punctuation) :
    OneAhead (delimited start close separator item) := by
  -- the row takes its own tokens for a budget, which is as good as any larger one
  have hmore : OneAhead fun ts => moreItems close separator item ts ts :=
    .of_budget (oneAhead_moreItems hitem close separator)
      fun h h' => moreItems_budget hconsumes close separator h h'
  have hitems := hitem.next fun x => hmore.next fun xs => .ok (x :: xs)
  refine (oneAhead_expectMark start).bind_tokens (.of_head (hitems.shrinks []) fun t => ?_)
  by_cases ht : t = .mark close
  · refine .inl ⟨_, .ok [], fun ts => ?_⟩
    rw [ht]
    exact if_pos (by simp)
  · refine .inr ⟨_, hitems, fun ts => ?_⟩
    exact if_neg (by simp [opens_cons_of_ne ht])

/-! ### Levels of an expression -/

section Levels

variable {inner : Reader Term} (hconsumes : Consumes (Derives .expression) inner)
  (hinner : OneAhead inner)

include hconsumes hinner

theorem oneAhead_calls (budget : List Token) (callee : Term) :
    OneAhead (calls inner budget callee) := by
  induction budget generalizing callee with
  | nil =>
    rw [calls_nil]
    exact .ok callee
  | cons b budget ih =>
    refine .of_head (Nat.le_refl 0) fun t => ?_
    by_cases ht : t = .mark .leftParen
    · have hcall := (oneAhead_delimited hconsumes hinner .leftParen .rightParen .comma).next
        fun arguments => ih (.call callee arguments)
      refine .inr ⟨_, hcall, fun ts => ?_⟩
      rw [calls, if_pos (by simp [ht])]
    · refine .inr ⟨_, .ok callee, fun ts => ?_⟩
      rw [calls, if_neg (by simp [opens_cons_of_ne ht])]

/-- The calls that follow an operand, without a budget. -/
theorem oneAhead_allCalls (callee : Term) : OneAhead fun ts => calls inner ts callee ts :=
  .of_budget (fun budget => oneAhead_calls hconsumes hinner budget callee)
    fun h h' => calls_budget hconsumes callee h h'

omit hconsumes in
theorem oneAhead_conditional : OneAhead (conditional inner) := by
  refine hinner.bind fun condition => oneAhead_expectBranch.bind_tokens
    (hinner.bind fun consequent => .of_head (Nat.le_refl 0) fun t => ?_)
  -- whether there is a second branch is told by the next token
  by_cases ht : t = .keyword .elseWord
  · have helse := hinner.next fun alternative =>
      .ok (Term.conditional condition consequent alternative)
    refine .inl ⟨_, helse, fun ts => ?_⟩
    rw [ht]
    rfl
  · refine .inr ⟨_, .ok (.conditional condition consequent .missing), fun ts => ?_⟩
    simp only
    split
    · next h => exact absurd (List.cons.inj h).1 ht
    · rfl

omit hconsumes in
theorem oneAhead_function : OneAhead (function inner) :=
  (oneAhead_delimited consumes_parameter oneAhead_parameter _ _ _).bind fun _ =>
    hinner.bind fun _ => .ok _

end Levels

section Nesting

variable {inner : Nested} (hconsumes : ∀ k, Consumes (Derives .expression) (inner k))
  (hinner : ∀ k, OneAhead (inner k))

include hconsumes hinner

theorem oneAhead_primary : OneAhead (primary inner) := by
  have hgrouped := (hinner 0).next fun e => (oneAhead_expectMark .rightParen).bind_tokens (.ok e)
  have hrow := oneAhead_delimited (hconsumes 2) (hinner 2) .leftBrace .rightBrace .semicolon
  have hblock := hrow.next fun es => .ok (blockOf es)
  refine .of_head (Nat.le_refl 0) fun t => ?_
  cases t with
  | mark m =>
    cases m with
    | leftParen => exact .inl ⟨_, hgrouped, fun _ => rfl⟩
    | leftBrace => exact .inr ⟨_, hblock, fun _ => rfl⟩
    | _ => exact .inr ⟨_, .unwanted .expression, fun _ => rfl⟩
  | keyword k =>
    cases k with
    | ifWord => exact .inl ⟨_, oneAhead_conditional (hinner 1), fun _ => rfl⟩
    | trueWord => exact .inl ⟨_, .ok (.boolean true), fun _ => rfl⟩
    | falseWord => exact .inl ⟨_, .ok (.boolean false), fun _ => rfl⟩
    | lambdaWord => exact .inl ⟨_, oneAhead_function (hinner 1), fun _ => rfl⟩
    | lambdaLetter => exact .inl ⟨_, oneAhead_function (hinner 1), fun _ => rfl⟩
    | _ => exact .inr ⟨_, .unwanted .expression, fun _ => rfl⟩
  | name n => exact .inl ⟨_, .ok (.var n), fun _ => rfl⟩
  | number x => exact .inl ⟨_, .ok (.number x), fun _ => rfl⟩
  | text s => exact .inl ⟨_, .ok (.text s), fun _ => rfl⟩
  | operator symbol => exact .inr ⟨_, .unwanted .expression, fun _ => rfl⟩

theorem oneAhead_atom : OneAhead (atom inner) :=
  (oneAhead_primary (fun k => hconsumes (k + 2)) fun k => hinner (k + 2)).bind fun e =>
    oneAhead_allCalls (hconsumes 3) (hinner 3) e

omit hconsumes hinner in
theorem nextInfix?_cons (threshold : Nat) (t : Token) (ts : List Token) :
    nextInfix? threshold (t :: ts)
      = (nextInfix? threshold [t]).map fun next => (next.1, ts) := by
  cases t with
  | operator symbol =>
    simp only [nextInfix?]
    split
    · split <;> rfl
    · rfl
  | _ => rfl

theorem oneAhead_climb (budget : List Token) (threshold : Nat) (left : Term) :
    OneAhead (climb inner budget threshold left) := by
  induction budget generalizing inner threshold left with
  | nil =>
    rw [climb_nil]
    exact .ok left
  | cons b budget ih =>
    refine .of_head (Nat.le_refl 0) fun t => ?_
    cases hnext : nextInfix? threshold [t] with
    | some next =>
      obtain ⟨op, rest⟩ := next
      have hconsumes' (k : Nat) := hconsumes (k + 1)
      have hinner' (k : Nat) := hinner (k + 1)
      -- behind the operator an operand follows, a tighter climb, and the rest of this one
      have hright := (oneAhead_atom hconsumes' hinner').next fun first =>
        (ih hconsumes' hinner' op.precedence first).next fun right =>
          ih hconsumes hinner threshold (join op left right)
      refine .inl ⟨_, hright, fun ts => ?_⟩
      rw [climb, nextInfix?_cons, hnext]
      rfl
    | none =>
      refine .inr ⟨_, .ok left, fun ts => ?_⟩
      rw [climb, nextInfix?_cons, hnext]
      rfl

theorem oneAhead_operation : OneAhead (operation inner) := by
  have hconsumes' (k : Nat) := hconsumes (k + 1)
  have hinner' (k : Nat) := hinner (k + 1)
  refine (oneAhead_atom hconsumes' hinner').bind fun left => ?_
  exact .of_budget (fun budget => oneAhead_climb hconsumes' hinner' budget 0 left)
    fun h h' => climb_budget hconsumes' 0 left h h'

theorem oneAhead_expressionWith : OneAhead (expressionWith inner) :=
  (oneAhead_operation (fun k => hconsumes (k + 2)) fun k => hinner (k + 2)).bind fun e =>
    oneAhead_allCalls (hconsumes 3) (hinner 3) e

end Nesting

theorem oneAhead_nested (frames k : Nat) : OneAhead (nested frames k) :=
  nested_induction .tooDeep (fun frames => oneAhead_expressionWith (consumes_nested frames))
    frames k

/-- **The reader of expressions looks one token ahead.**  On tokens that agree up to some point,
and have one more in common, it does the same as long as it has not consumed that one; what comes
after makes no difference. -/
theorem oneAhead_expression (frames : Nat) : OneAhead (expression frames) :=
  oneAhead_nested frames 0

/-! ### Programs -/

/-- The outcome of a reader of all tokens, which leaves none. -/
def wholly {α : Type} (x : Except Reject α) : Except Reject (α × List Token) :=
  x.map fun a => (a, [])

theorem wholly_bind {α β : Type} (x : Except Reject α) (f : α → Except Reject β) :
    wholly (x >>= f) = x >>= fun a => wholly (f a) := by
  cases x <;> rfl

theorem wholly_eq_error_iff {α : Type} {x : Except Reject α} {reject : Reject} :
    wholly x = .error reject ↔ x = .error reject := by
  cases x <;> simp [wholly, Except.map]

/-- What comes after an expression: the end, or a semicolon and more of the program. -/
def afterExpression (more : List Token → Except Reject (List Term)) (e : Term) :
    List Token → Except Reject (List Term)
  | [] => return [e]
  | ts => do
    let ts ← expectMark .semicolon ts
    let es ← more ts
    return e :: es

theorem oneAhead_afterExpression {more : List Token → Except Reject (List Term)}
    (hmore : OneAhead fun ts => wholly (more ts)) (e : Term) :
    OneAhead fun ts => wholly (afterExpression more e ts) := by
  have hsemicolon := (oneAhead_expectMark .semicolon).bind_tokens
    (hmore.next fun es => .ok (e :: es))
  refine .of_head (Nat.le_refl 0) fun t => .inr ⟨_, hsemicolon, fun ts => ?_⟩
  simp only [afterExpression, wholly_bind]
  refine bind_congr_ok fun ts₁ _ => ?_
  cases more ts₁ <;> rfl

theorem oneAhead_programWithin (frames : Nat) (budget : List Token) :
    OneAhead fun ts => wholly (programWithin frames budget ts) := by
  induction budget with
  | nil =>
    have hsame : (fun ts => wholly (programWithin frames [] ts)) = fun _ => .ok ([], []) := by
      funext ts
      cases ts <;> rfl
    rw [hsame]
    exact .finished []
  | cons b budget ih =>
    have hall := (oneAhead_expression frames).next fun e => oneAhead_afterExpression ih e
    refine .of_head (Nat.le_refl 0) fun t => .inr ⟨_, hall, fun ts => ?_⟩
    exact wholly_bind _ _

/-- **What follows a rejected token does not matter.** -/
theorem program_rejects_alike {frames : Nat} {w r : List Token} {t : Token} {wanted : Wanted}
    (h : program frames (w ++ t :: r) = .error (.unwanted wanted (t :: r))) (r' : List Token) :
    program frames (w ++ t :: r') = .error (.unwanted wanted (t :: r')) := by
  have hahead : OneAhead fun ts => wholly (program frames ts) :=
    .of_budget (oneAhead_programWithin frames) fun h h' => by rw [programWithin_budget frames h h']
  have halike := hahead.sees w t r r'
  simp only [h] at halike
  generalize hx : wholly (.error (.unwanted wanted (t :: r)) : Except Reject (List Term)) = x
    at halike
  generalize hy : wholly (program frames (w ++ t :: r')) = y at halike
  cases halike with
  | ok => cases hx
  | unwanted wanted' m =>
    obtain ⟨rfl, hm⟩ := Reject.unwanted.inj (Except.error.inj hx)
    have hlength := congrArg List.length hm
    simp only [List.length_append, List.length_cons] at hlength
    obtain rfl : m = [] := List.length_eq_zero_iff.1 (by omega)
    exact wholly_eq_error_iff.1 hy
  | past hpast =>
    -- the token is still there
    rw [← hx] at hpast
    have hlength : (t :: r).length ≤ r.length := hpast
    rw [List.length_cons] at hlength
    omega

end Lamlet.Grammar
