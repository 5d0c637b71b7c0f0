import Lamlet.Proofs.Grammar.Greedy
import Lamlet.Proofs.Grammar.Lookahead

/-!
# More tokens behind

A reader that runs into the end of the tokens stops there, and it stops in the same place if
something follows that no expression goes on with, such as a semicolon.  So the tokens of two
programs with a semicolon between them are the tokens of both programs in one.

## Main definitions

* `Steady` — what a reader has read stays the same with certain tokens behind.

## Main results

* `Steady.bind`, `Steady.of_head`, `Steady.of_budget` — how such readers are made.
* `steady_expression` — an expression is read in the same way before a semicolon.
* `program_append` — **two programs with a semicolon between them are one program.**
-/

namespace Lamlet.Grammar

/-! ### Readers that are not misled by what follows -/

/-- What the reader has read, it reads as well with these tokens behind, and leaves them. -/
def Steady {α : Type} (behind : List Token) (p : Reader α) : Prop :=
  ∀ ⦃ts rest : List Token⦄ ⦃a : α⦄, p ts = .ok (a, rest) →
    p (ts ++ behind) = .ok (a, rest ++ behind)

namespace Steady

variable {α β : Type} {behind : List Token}

theorem ok (a : α) : Steady behind fun ts => .ok (a, ts) := by
  intro ts rest b h
  obtain ⟨rfl, rfl⟩ := Prod.mk.inj (Except.ok.inj h)
  rfl

theorem unwanted (wanted : Wanted) :
    Steady behind (fun ts => .error (.unwanted wanted ts) : Reader α) := by
  intro ts rest a h
  cases h

/-- One reader after another. -/
theorem bind {p : Reader α} {k : α × List Token → Except Reject (β × List Token)}
    (hp : Steady behind p) (hk : ∀ a, Steady behind fun ts => k (a, ts)) :
    Steady behind fun ts => p ts >>= k := by
  intro ts rest b h
  obtain ⟨⟨a, ts₁⟩, hfirst, hsecond⟩ := exists_of_bind_eq_ok h
  simp only [hp hfirst]
  exact hk a hsecond

/-- The same with a second reader that is given what the first one has read. -/
theorem next {p : Reader α} {k : α → Reader β} (hp : Steady behind p)
    (hk : ∀ a, Steady behind (k a)) : Steady behind fun ts => p ts >>= fun b => k b.1 b.2 :=
  hp.bind hk

/-- A reader after a token that is only consumed. -/
theorem bind_tokens {e : List Token → Except Reject (List Token)} {p : Reader α}
    (he : Steady behind fun ts => (e ts).map fun rest => ((), rest)) (hp : Steady behind p) :
    Steady behind fun ts => e ts >>= p := by
  intro ts rest a h
  obtain ⟨ts₁, hfirst, hsecond⟩ := exists_of_bind_eq_ok h
  have hmap : (e ts).map (fun rest => ((), rest)) = .ok ((), ts₁) := by rw [hfirst]; rfl
  have hbehind := he hmap
  simp only at hbehind ⊢
  cases htokens : e (ts ++ behind) with
  | error reject =>
    rw [htokens] at hbehind
    cases hbehind
  | ok ts₂ =>
    rw [htokens] at hbehind
    obtain ⟨-, rfl⟩ := Prod.mk.inj (Except.ok.inj hbehind)
    exact hp hsecond

/-- A reader that is chosen by the first token, which it consumes or leaves.  At the end it
must not be misled. -/
theorem of_head {p : Reader α}
    (hnil : ∀ a rest, p [] = .ok (a, rest) → p behind = .ok (a, rest ++ behind))
    (hcons : ∀ t, (∃ q : Reader α, Steady behind q ∧ ∀ ts, p (t :: ts) = q ts) ∨
      ∃ q : Reader α, Steady behind q ∧ ∀ ts, p (t :: ts) = q (t :: ts)) : Steady behind p := by
  intro ts rest a h
  cases ts with
  | nil => exact hnil a rest h
  | cons t ts =>
    rcases hcons t with ⟨q, hq, hp⟩ | ⟨q, hq, hp⟩
    · rw [hp] at h
      rw [List.cons_append, hp]
      exact hq h
    · rw [hp] at h
      rw [List.cons_append, hp]
      exact hq h

/-- A loop with its tokens as budget, of which only the length counts. -/
theorem of_budget {p : List Token → Reader α} (hp : ∀ budget, Steady behind (p budget))
    (hbudget : ∀ {budget budget' ts : List Token}, ts.length ≤ budget.length →
      ts.length ≤ budget'.length → p budget ts = p budget' ts) :
    Steady behind fun ts => p ts ts := by
  intro ts rest a h
  apply hp (ts ++ behind)
  rw [← h]
  exact hbudget (by simp) (Nat.le_refl _)

end Steady

/-! ### Single tokens -/

section Tokens

variable (behind : List Token)

theorem steady_expectMark (m : Punctuation) :
    Steady behind fun ts => (expectMark m ts).map fun rest => ((), rest) := by
  intro ts rest a h
  cases hexpect : expectMark m ts with
  | error reject => simp [hexpect, Except.map] at h
  | ok ts₁ =>
    obtain rfl := eq_of_expectMark hexpect
    obtain rfl : ts₁ = rest := by simpa [Except.map] using h
    simp [Except.map]

theorem steady_expectKeyword (k : Keyword) :
    Steady behind fun ts => (expectKeyword k ts).map fun rest => ((), rest) := by
  intro ts rest a h
  cases hexpect : expectKeyword k ts with
  | error reject => simp [hexpect, Except.map] at h
  | ok ts₁ =>
    obtain rfl := eq_of_expectKeyword hexpect
    obtain rfl : ts₁ = rest := by simpa [expectKeyword, Except.map] using h
    simp [expectKeyword, Except.map]

theorem steady_expectBranch :
    Steady behind fun ts => (expectBranch ts).map fun rest => ((), rest) := by
  refine .of_head (fun a rest h => by cases h) fun t => ?_
  by_cases ht : t = .mark .leftBrace
  · refine .inr ⟨_, .ok (), fun ts => ?_⟩
    simp [expectBranch, ht, Except.map]
  · refine .inr ⟨_, steady_expectKeyword behind .thenWord, fun ts => ?_⟩
    simp [expectBranch, opens_cons_of_ne ht]

theorem steady_parameter : Steady behind parameter := by
  refine .of_head (fun a rest h => by cases h) fun t => ?_
  cases t with
  | name n => exact .inl ⟨_, .ok n, fun _ => rfl⟩
  | _ => exact .inr ⟨_, .unwanted .parameter, fun _ => rfl⟩

end Tokens

/-! ### Rows -/

section Rows

variable {α : Type} {behind : List Token} {item : Reader α} (hitem : Steady behind item)

include hitem

theorem steady_moreItems (close separator : Punctuation) (budget : List Token) :
    Steady behind (moreItems close separator item budget) := by
  induction budget with
  | nil =>
    refine .of_head (fun a rest h => by cases h) fun t => ?_
    by_cases ht : t = .mark close
    · refine .inl ⟨_, .ok [], fun ts => ?_⟩
      simp [moreItems, ht]
    · refine .inr ⟨_, .unwanted (.mark separator), fun ts => ?_⟩
      simp [moreItems, opens_cons_of_ne ht]
  | cons b budget ih =>
    -- a row cannot end where the tokens do, so it never gets to what is behind them
    refine .of_head (fun a rest h => by cases h) fun t => ?_
    by_cases ht : t = .mark close
    · refine .inl ⟨_, .ok [], fun ts => ?_⟩
      simp [moreItems, ht]
    · have hmore := (steady_expectMark behind separator).bind_tokens
        (hitem.next fun x => ih.next fun xs => .ok (x :: xs))
      refine .inr ⟨_, hmore, fun ts => ?_⟩
      simp only [moreItems, opens_cons_of_ne ht]
      rfl

theorem steady_delimited {L : List Token → Prop} (hconsumes : Consumes L item)
    (hnil : ∀ w, L w → w ≠ []) (start close separator : Punctuation) :
    Steady behind (delimited start close separator item) := by
  have hmore : Steady behind fun ts => moreItems close separator item ts ts :=
    .of_budget (steady_moreItems hitem close separator)
      fun h h' => moreItems_budget hconsumes close separator h h'
  have hitems := hitem.next fun x => hmore.next fun xs => .ok (x :: xs)
  refine (steady_expectMark behind start).bind_tokens (.of_head ?_ fun t => ?_)
  · intro xs rest h
    -- there is no item at the end
    obtain ⟨⟨x, ts⟩, hx, -⟩ := exists_of_bind_eq_ok h
    obtain ⟨w, hw, hend⟩ := hconsumes hx
    exact absurd (List.append_eq_nil_iff.1 hend.symm).1 (hnil w hw)
  · by_cases ht : t = .mark close
    · refine .inl ⟨_, .ok [], fun ts => ?_⟩
      rw [ht]
      exact if_pos (by simp)
    · refine .inr ⟨_, hitems, fun ts => ?_⟩
      exact if_neg (by simp [opens_cons_of_ne ht])

end Rows

/-! ### Levels of an expression -/

section Levels

variable {behind : List Token} (hbehind : Ends 1 behind) {inner : Reader Term}
  (hconsumes : Consumes (Derives .expression) inner) (hinner : Steady behind inner)

include hbehind hconsumes hinner

omit hbehind in
theorem steady_row (start close separator : Punctuation) :
    Steady behind (delimited start close separator inner) :=
  steady_delimited hinner hconsumes (fun _ hw => hw.ne_nil (by simp)) start close separator

theorem steady_calls (budget : List Token) (callee : Term) :
    Steady behind (calls inner budget callee) := by
  induction budget generalizing callee with
  | nil =>
    rw [calls_nil]
    exact .ok callee
  | cons b budget ih =>
    refine .of_head ?_ fun t => ?_
    · -- what is behind is no bracket, so the operand still ends where the tokens do
      intro e rest h
      obtain ⟨rfl, rfl⟩ := Prod.mk.inj (Except.ok.inj h)
      rw [calls, if_neg (by simp [hbehind.noCall])]
      rfl
    · by_cases ht : t = .mark .leftParen
      · have hcall := (steady_row hconsumes hinner .leftParen .rightParen .comma).next
          fun arguments => ih (.call callee arguments)
        refine .inr ⟨_, hcall, fun ts => ?_⟩
        rw [calls, if_pos (by simp [ht])]
      · refine .inr ⟨_, .ok callee, fun ts => ?_⟩
        rw [calls, if_neg (by simp [opens_cons_of_ne ht])]

/-- The calls that follow an operand, without a budget. -/
theorem steady_allCalls (callee : Term) : Steady behind fun ts => calls inner ts callee ts :=
  .of_budget (fun budget => steady_calls hbehind hconsumes hinner budget callee)
    fun h h' => calls_budget hconsumes callee h h'

omit hconsumes in
theorem steady_conditional : Steady behind (conditional inner) := by
  refine hinner.bind fun condition => (steady_expectBranch behind).bind_tokens
    (hinner.bind fun consequent => .of_head ?_ fun t => ?_)
  · intro e rest h
    obtain ⟨rfl, rfl⟩ := Prod.mk.inj (Except.ok.inj h)
    -- no `else` follows that the conditional could take
    simp only
    split
    · next ts => exact absurd rfl (hbehind.noElse Nat.one_ne_zero ts)
    · rfl
  · by_cases ht : t = .keyword .elseWord
    · have helse := hinner.next fun alternative =>
        .ok (Term.conditional condition consequent alternative)
      refine .inl ⟨_, helse, fun ts => ?_⟩
      rw [ht]
      rfl
    · refine .inr ⟨_, .ok (.conditional condition consequent .missing), fun ts => ?_⟩
      simp only
      split
      · next h => exact absurd (List.cons.inj h).1 ht
      · rfl

omit hbehind hconsumes in
theorem steady_function : Steady behind (function inner) := by
  refine Steady.bind ?_ fun parameters => hinner.bind fun body => .ok (Term.lambda parameters body)
  refine steady_delimited (steady_parameter behind) consumes_parameter ?_ _ _ _
  rintro w ⟨n, rfl⟩
  exact List.cons_ne_nil _ _

end Levels

section Nesting

variable {behind : List Token} (hbehind : Ends 1 behind) {inner : Nested}
  (hconsumes : ∀ k, Consumes (Derives .expression) (inner k))
  (hinner : ∀ k, Steady behind (inner k))

include hbehind hconsumes hinner

theorem steady_primary : Steady behind (primary inner) := by
  have hgrouped := (hinner 0).next fun e =>
    (steady_expectMark behind .rightParen).bind_tokens (.ok e)
  have hblock := (steady_row (hconsumes 2) (hinner 2) .leftBrace .rightBrace .semicolon).next
    fun es => .ok (blockOf es)
  refine .of_head (fun a rest h => by cases h) fun t => ?_
  cases t with
  | mark m =>
    cases m with
    | leftParen => exact .inl ⟨_, hgrouped, fun _ => rfl⟩
    | leftBrace => exact .inr ⟨_, hblock, fun _ => rfl⟩
    | _ => exact .inr ⟨_, .unwanted .expression, fun _ => rfl⟩
  | keyword k =>
    cases k with
    | ifWord => exact .inl ⟨_, steady_conditional hbehind (hinner 1), fun _ => rfl⟩
    | trueWord => exact .inl ⟨_, .ok (.boolean true), fun _ => rfl⟩
    | falseWord => exact .inl ⟨_, .ok (.boolean false), fun _ => rfl⟩
    | lambdaWord => exact .inl ⟨_, steady_function (hinner 1), fun _ => rfl⟩
    | lambdaLetter => exact .inl ⟨_, steady_function (hinner 1), fun _ => rfl⟩
    | _ => exact .inr ⟨_, .unwanted .expression, fun _ => rfl⟩
  | name n => exact .inl ⟨_, .ok (.var n), fun _ => rfl⟩
  | number x => exact .inl ⟨_, .ok (.number x), fun _ => rfl⟩
  | text s => exact .inl ⟨_, .ok (.text s), fun _ => rfl⟩
  | operator symbol => exact .inr ⟨_, .unwanted .expression, fun _ => rfl⟩

theorem steady_atom : Steady behind (atom inner) :=
  (steady_primary hbehind (fun k => hconsumes (k + 2)) fun k => hinner (k + 2)).bind fun e =>
    steady_allCalls hbehind (hconsumes 3) (hinner 3) e

theorem steady_climb (budget : List Token) (threshold : Nat) (left : Term) :
    Steady behind (climb inner budget threshold left) := by
  induction budget generalizing inner threshold left with
  | nil =>
    rw [climb_nil]
    exact .ok left
  | cons b budget ih =>
    refine .of_head ?_ fun t => ?_
    · -- nor is it an operator
      intro e rest h
      obtain ⟨rfl, rfl⟩ := Prod.mk.inj (Except.ok.inj h)
      rw [climb, hbehind.nextInfix?_eq_none threshold]
      rfl
    · cases hnext : nextInfix? threshold [t] with
      | some next =>
        obtain ⟨op, rest⟩ := next
        have hconsumes' (k : Nat) := hconsumes (k + 1)
        have hinner' (k : Nat) := hinner (k + 1)
        have hright := (steady_atom hbehind hconsumes' hinner').next fun first =>
          (ih hconsumes' hinner' op.precedence first).next fun right =>
            ih hconsumes hinner threshold (join op left right)
        refine .inl ⟨_, hright, fun ts => ?_⟩
        rw [climb, nextInfix?_cons, hnext]
        rfl
      | none =>
        refine .inr ⟨_, .ok left, fun ts => ?_⟩
        rw [climb, nextInfix?_cons, hnext]
        rfl

theorem steady_operation : Steady behind (operation inner) := by
  have hconsumes' (k : Nat) := hconsumes (k + 1)
  have hinner' (k : Nat) := hinner (k + 1)
  refine (steady_atom hbehind hconsumes' hinner').bind fun left => ?_
  exact .of_budget (fun budget => steady_climb hbehind hconsumes' hinner' budget 0 left)
    fun h h' => climb_budget hconsumes' 0 left h h'

theorem steady_expressionWith : Steady behind (expressionWith inner) :=
  (steady_operation hbehind (fun k => hconsumes (k + 2)) fun k => hinner (k + 2)).bind fun e =>
    steady_allCalls hbehind (hconsumes 3) (hinner 3) e

end Nesting

/-- **An expression is read in the same way with something behind that it does not go on with.**
What is behind starts with no call, no operator and no `else`, and nothing else makes a reader go
on; so it stops where the tokens stopped without it. -/
theorem steady_expression {behind : List Token} (hbehind : Ends 1 behind) (frames : Nat) :
    Steady behind (expression frames) :=
  nested_induction (fun _ _ _ h => nomatch h)
    (fun frames => steady_expressionWith hbehind (consumes_nested frames)) frames 0

/-! ### Programs -/

/-- A program is an expression and, after a semicolon, the rest of the program. -/
theorem program_eq {frames : Nat} {ts : List Token} (h : ts ≠ []) :
    program frames ts =
      expression frames ts >>= fun b => afterExpression (program frames) b.1 b.2 := by
  obtain ⟨t, ts, rfl⟩ := List.exists_cons_of_ne_nil h
  rw [program_cons]
  refine bind_congr ?_
  rintro ⟨e, ts₁⟩
  cases ts₁ with
  | nil => rfl
  | cons t₁ ts₁ => rfl

theorem afterExpression_semicolon (more : List Token → Except Reject (List Term)) (e : Term)
    (ts : List Token) :
    afterExpression more e (.mark .semicolon :: ts) = (more ts).map (e :: ·) := by
  rw [afterExpression, expectMark_mark]
  · show (more ts >>= fun es => pure (e :: es)) = _
    cases more ts <;> rfl
  · simp

/-- **Two programs with a semicolon between them are one program**, with the expressions of
the one before those of the other. -/
theorem program_append {frames : Nat} {ts : List Token} {es : List Term}
    (h : program frames ts = .ok es) (hne : ts ≠ [])
    (hlast : ts.getLast? ≠ some (.mark .semicolon)) (us : List Token) :
    program frames (ts ++ .mark .semicolon :: us) = (program frames us).map (es ++ ·) := by
  induction hn : ts.length using Nat.strongRecOn generalizing ts es with
  | ind n ih =>
    rw [program_eq hne] at h
    obtain ⟨⟨e, rest⟩, hexpression, hafter⟩ := exists_of_bind_eq_ok h
    have hsteady := steady_expression
      (ends_mark .semicolon (by decide) 1 us) frames hexpression
    rw [program_eq (by simp), hsteady]
    show afterExpression (program frames) e (rest ++ .mark .semicolon :: us) = _
    cases rest with
    | nil =>
      obtain rfl := Except.ok.inj hafter
      rw [List.nil_append, afterExpression_semicolon]
      rfl
    | cons t rest =>
      obtain ⟨ts₁, hmark, hmore⟩ := exists_of_bind_eq_ok hafter
      obtain ⟨rfl, rfl⟩ := List.cons.inj (eq_of_expectMark hmark)
      obtain ⟨fs, hfs, hes⟩ := exists_of_bind_eq_ok hmore
      obtain rfl := Except.ok.inj hes
      obtain ⟨w, -, rfl⟩ := consumes_expression frames hexpression
      -- a semicolon at the end is excluded, so that there is more
      have hrest : rest ≠ [] := by
        rintro rfl
        simp at hlast
      have hlast' : rest.getLast? ≠ some (.mark .semicolon) := by
        simpa [List.getLast?_append, List.getLast?_cons_of_ne_nil hrest, hrest] using hlast
      have hjoined := ih rest.length (by simp at hn; omega) hfs hrest hlast' rfl
      rw [List.cons_append, afterExpression_semicolon, hjoined]
      cases program frames us <;> rfl

end Lamlet.Grammar
