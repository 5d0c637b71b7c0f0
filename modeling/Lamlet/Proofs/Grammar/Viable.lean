import Lamlet.Proofs.Grammar.Language

/-!
# What stands before a rejected token

A reader that rejects a token has consumed the tokens before it, and these are the start of
a word of its nonterminal: however deep the reader was nested, each of the forms that it had
begun can still be completed.

## Main definitions

* `Falters` — what a reader consumed before it rejected a token can be completed.

## Main results

* `falters_expression` — the reader of expressions falters after the start of an expression.
* `exists_derives_of_rejected` — **tokens before a rejected one are the start of a program.**
-/

namespace Lamlet.Grammar

/-- Where the reader rejects a token, the tokens before it can be completed to a word of the
language. -/
def Falters {α : Type} (L : List Token → Prop) (p : Reader α) : Prop :=
  ∀ ⦃ts rest : List Token⦄ ⦃wanted : Wanted⦄, p ts = .error (.unwanted wanted rest) →
    ∃ w v, L (w ++ v) ∧ ts = w ++ rest

/-! ### Single tokens -/

theorem eq_of_expectMark_error {m : Punctuation} {ts rest : List Token} {wanted : Wanted}
    (h : expectMark m ts = .error (.unwanted wanted rest)) : rest = ts := by
  unfold expectMark at h
  split at h
  · cases h
  · cases h
    rfl

theorem eq_of_expectKeyword_error {k : Keyword} {ts rest : List Token} {wanted : Wanted}
    (h : expectKeyword k ts = .error (.unwanted wanted rest)) : rest = ts := by
  unfold expectKeyword at h
  split at h
  · split at h
    · cases h
    · cases h
      rfl
  · cases h
    rfl

theorem eq_of_expectBranch_error {ts rest : List Token} {wanted : Wanted}
    (h : expectBranch ts = .error (.unwanted wanted rest)) : rest = ts := by
  unfold expectBranch at h
  split at h
  · cases h
  · exact eq_of_expectKeyword_error h

theorem falters_parameter : Falters (fun w => ∃ n, w = [.name n]) parameter := by
  intro ts rest wanted h
  unfold parameter at h
  split at h
  · cases h
  · cases h
    exact ⟨[], [.name "x"], ⟨"x", rfl⟩, rfl⟩

/-! ### Rows -/

theorem falters_moreItems {α : Type} {L : List Token → Prop} {item : Reader α}
    (hitem : Consumes L item) (hfalters : Falters L item) (close separator : Punctuation)
    (budget : List Token) :
    Falters (fun w => ∃ v, Continued L separator v ∧ w = v ++ [.mark close])
      (moreItems close separator item budget) := by
  induction budget with
  | nil =>
    intro ts rest wanted h
    unfold moreItems at h
    split at h
    · cases h
    · cases h
      exact ⟨[], [.mark close], ⟨[], .none, rfl⟩, rfl⟩
  | cons b budget ih =>
    intro ts rest wanted h
    unfold moreItems at h
    split at h
    · cases h
    · rcases eq_error_or_of_bind_eq_error h with hmark | ⟨ts₁, hmark, h₁⟩
      · -- the row could have been closed instead
        obtain rfl := eq_of_expectMark_error hmark
        exact ⟨[], [.mark close], ⟨[], .none, rfl⟩, rfl⟩
      obtain rfl := eq_of_expectMark hmark
      rcases eq_error_or_of_bind_eq_error h₁ with hx | ⟨⟨x, ts₂⟩, hx, h₂⟩
      · obtain ⟨w, v, hw, rfl⟩ := hfalters hx
        refine ⟨.mark separator :: w, v ++ [.mark close], ⟨_, .more hw .none, ?_⟩, rfl⟩
        simp
      obtain ⟨w, hw, rfl⟩ := hitem hx
      rcases eq_error_or_of_bind_eq_error h₂ with hxs | ⟨⟨xs, ts₃⟩, -, h₃⟩
      · obtain ⟨w', v, ⟨v', hv', hwv⟩, rfl⟩ := ih hxs
        refine ⟨.mark separator :: (w ++ w'), v, ⟨_, .more hw hv', ?_⟩, by simp⟩
        simp [hwv]
      · cases h₃

theorem falters_delimited {α : Type} {L : List Token → Prop} {item : Reader α}
    (hitem : Consumes L item) (hfalters : Falters L item) (start close separator : Punctuation) :
    Falters (fun w => ∃ v, (v = [] ∨ Separated L separator v) ∧
        w = .mark start :: (v ++ [.mark close]))
      (delimited start close separator item) := by
  intro ts rest wanted h
  -- the row can be closed right where it was given up
  rcases eq_error_or_of_bind_eq_error h with hmark | ⟨ts₁, hmark, h₁⟩
  · obtain rfl := eq_of_expectMark_error hmark
    exact ⟨[], [.mark start, .mark close], ⟨[], .inl rfl, rfl⟩, rfl⟩
  obtain rfl := eq_of_expectMark hmark
  split at h₁
  · cases h₁
  rcases eq_error_or_of_bind_eq_error h₁ with hx | ⟨⟨x, ts₂⟩, hx, h₂⟩
  · obtain ⟨w, v, hw, rfl⟩ := hfalters hx
    refine ⟨.mark start :: w, v ++ [.mark close], ⟨_, .inr (.one hw), ?_⟩, rfl⟩
    simp
  obtain ⟨w, hw, rfl⟩ := hitem hx
  rcases eq_error_or_of_bind_eq_error h₂ with hxs | ⟨⟨xs, ts₃⟩, -, h₃⟩
  · obtain ⟨w', v, ⟨v', hv', hwv⟩, rfl⟩ := falters_moreItems hitem hfalters close separator _ hxs
    refine ⟨.mark start :: (w ++ w'), v, ⟨_, .inr (hv'.separated hw), ?_⟩, by simp⟩
    simp [hwv]
  · cases h₃

/-! ### Levels of an expression -/

/-- The shortest expression there is. -/
theorem derives_trueWord : Derives .expression [.keyword .trueWord] :=
  .operand (.uncalled .trueWord)

/-- A branch that can be written anywhere. -/
theorem derives_thenTrue : Derives .branch [.keyword .thenWord, .keyword .trueWord] :=
  .marked derives_trueWord

section Levels

variable {inner : Reader Term} (hinner : Consumes (Derives .expression) inner)
  (hfalters : Falters (Derives .expression) inner)

include hinner hfalters

/-- Calls can be completed to a word of any language that calls can go on with. -/
theorem falters_calls {X : List Token → Prop}
    (hX : ∀ {w args : List Token}, X w → Derives (.row .comma) args →
      X (w ++ .mark .leftParen :: (args ++ [.mark .rightParen])))
    (budget : List Token) (callee : Term) {w₀ : List Token} (hcallee : X w₀) :
    ∀ ⦃ts rest : List Token⦄ ⦃wanted : Wanted⦄,
      calls inner budget callee ts = .error (.unwanted wanted rest) →
      ∃ w v, X (w₀ ++ (w ++ v)) ∧ ts = w ++ rest := by
  induction budget generalizing callee w₀ with
  | nil =>
    intro ts rest wanted h
    rw [calls_nil] at h
    cases h
  | cons b budget ih =>
    intro ts rest wanted h
    unfold calls at h
    split at h
    · -- arguments that were begun can be finished, and those that were read belong to the word
      rcases eq_error_or_of_bind_eq_error h with hargs | ⟨⟨args, ts₁⟩, hargs, h₁⟩
      · obtain ⟨w, v, ⟨row, hrow, hwv⟩, rfl⟩ := falters_delimited hinner hfalters _ _ _ hargs
        refine ⟨w, v, ?_, rfl⟩
        rw [hwv]
        exact hX hcallee (derives_row_of_separated hrow)
      · obtain ⟨_, ⟨row, hrow, rfl⟩, rfl⟩ := consumes_delimited hinner _ _ _ hargs
        obtain ⟨w, v, hwv, rfl⟩ := ih _ (hX hcallee (derives_row_of_separated hrow)) h₁
        refine ⟨.mark .leftParen :: (row ++ [.mark .rightParen]) ++ w, v, ?_, by simp⟩
        simpa using hwv
    · cases h

omit hinner in
/-- A first branch that was begun can be completed; if its brace was rejected at once, by a
branch of another form. -/
theorem exists_branch {ts₁ ts₂ rest : List Token} {wanted : Wanted}
    (hthen : expectBranch ts₁ = .ok ts₂) (he : inner ts₂ = .error (.unwanted wanted rest)) :
    ∃ b v, Derives .branch (b ++ v) ∧ ts₁ = b ++ rest := by
  obtain ⟨w, v, hwv, rfl⟩ := hfalters he
  unfold expectBranch at hthen
  split at hthen
  · next hopen =>
    obtain ⟨rest', rfl⟩ := opens_iff.1 hopen
    obtain hts := Except.ok.inj hthen
    cases w with
    | nil => exact ⟨[], _, derives_thenTrue, hts⟩
    | cons t w =>
      obtain ⟨rfl, rfl⟩ := List.cons.inj hts
      exact ⟨.mark .leftBrace :: w, v, .braced hwv, rfl⟩
  · rw [eq_of_expectKeyword hthen]
    exact ⟨.keyword .thenWord :: w, v, .marked hwv, rfl⟩

theorem falters_conditional :
    Falters (fun w => Derives .primary (.keyword .ifWord :: w)) (conditional inner) := by
  intro ts rest wanted h
  -- what may be missing is a branch, and `then true` is the shortest one
  rcases eq_error_or_of_bind_eq_error h with hc | ⟨⟨c, ts₁⟩, hc, h₁⟩
  · obtain ⟨w, v, hwv, rfl⟩ := hfalters hc
    refine ⟨w, v ++ [.keyword .thenWord, .keyword .trueWord], ?_, rfl⟩
    have := Derives.oneBranch hwv derives_thenTrue
    simpa using this
  obtain ⟨w, hw, rfl⟩ := hinner hc
  rcases eq_error_or_of_bind_eq_error h₁ with hthen | ⟨ts₂, hthen, h₂⟩
  · obtain rfl := eq_of_expectBranch_error hthen
    exact ⟨w, _, .oneBranch hw derives_thenTrue, rfl⟩
  rcases eq_error_or_of_bind_eq_error h₂ with ht | ⟨⟨t, ts₃⟩, ht, h₃⟩
  · obtain ⟨b, v, hbv, rfl⟩ := exists_branch hfalters hthen ht
    refine ⟨w ++ b, v, ?_, by simp⟩
    have := Derives.oneBranch hw hbv
    simpa using this
  obtain ⟨b, hb, rfl⟩ := derives_branch hinner hthen ht
  simp only at h₃
  split at h₃
  · rcases eq_error_or_of_bind_eq_error h₃ with ha | ⟨⟨a, ts₅⟩, -, h₄⟩
    · obtain ⟨w', v, hwv, rfl⟩ := hfalters ha
      refine ⟨w ++ (b ++ .keyword .elseWord :: w'), v, ?_, by simp⟩
      have := Derives.twoBranches hw hb hwv
      simpa using this
    · cases h₄
  · cases h₃

omit hinner in
theorem falters_function {k : Keyword} (hk : k = .lambdaWord ∨ k = .lambdaLetter) :
    Falters (fun w => Derives .primary (.keyword k :: w)) (function inner) := by
  intro ts rest wanted h
  rcases eq_error_or_of_bind_eq_error h with hps | ⟨⟨ps, ts₁⟩, hps, h₁⟩
  · obtain ⟨w, v, ⟨row, hrow, hwv⟩, rfl⟩ :=
      falters_delimited consumes_parameter falters_parameter _ _ _ hps
    -- and here `true` is the shortest body
    refine ⟨w, v ++ [.keyword .trueWord], ?_, rfl⟩
    have := Derives.function hk (derives_parameters_of_separated hrow) derives_trueWord
    rw [← List.append_assoc, hwv]
    simpa using this
  obtain ⟨_, ⟨row, hrow, rfl⟩, rfl⟩ := consumes_delimited consumes_parameter _ _ _ hps
  rcases eq_error_or_of_bind_eq_error h₁ with hb | ⟨⟨b, ts₂⟩, -, h₂⟩
  · obtain ⟨w, v, hwv, rfl⟩ := hfalters hb
    refine ⟨.mark .leftParen :: (row ++ .mark .rightParen :: w), v, ?_, by simp⟩
    have := Derives.function hk (derives_parameters_of_separated hrow) hwv
    simpa using this
  · cases h₂

end Levels

section Nesting

variable {inner : Nested} (hinner : ∀ k, Consumes (Derives .expression) (inner k))
  (hfalters : ∀ k, Falters (Derives .expression) (inner k))

include hinner hfalters

theorem falters_primary : Falters (Derives .primary) (primary inner) := by
  intro ts rest wanted h
  unfold primary at h
  split at h
  · rcases eq_error_or_of_bind_eq_error h with he | ⟨⟨e, ts₁⟩, he, h₁⟩
    · obtain ⟨w, v, hwv, rfl⟩ := hfalters 0 he
      refine ⟨.mark .leftParen :: w, v ++ [.mark .rightParen], ?_, rfl⟩
      have := Derives.grouped hwv
      simpa using this
    obtain ⟨w, hw, rfl⟩ := hinner 0 he
    rcases eq_error_or_of_bind_eq_error h₁ with hclose | ⟨ts₂, -, h₂⟩
    · obtain rfl := eq_of_expectMark_error hclose
      exact ⟨.mark .leftParen :: w, [.mark .rightParen], .grouped hw, rfl⟩
    · cases h₂
  · rcases eq_error_or_of_bind_eq_error h with hes | ⟨⟨es, ts₁⟩, -, h₁⟩
    · obtain ⟨w, v, ⟨row, hrow, hwv⟩, hts⟩ := falters_delimited (hinner 2) (hfalters 2) _ _ _ hes
      refine ⟨w, v, ?_, hts⟩
      rw [hwv]
      exact .block (derives_row_of_separated hrow)
    · cases h₁
  · obtain ⟨w, v, hwv, rfl⟩ := falters_conditional (hinner 1) (hfalters 1) h
    exact ⟨.keyword .ifWord :: w, v, hwv, rfl⟩
  · cases h
  · cases h
  · obtain ⟨w, v, hwv, rfl⟩ := falters_function (hfalters 1) (.inl rfl) h
    exact ⟨.keyword .lambdaWord :: w, v, hwv, rfl⟩
  · obtain ⟨w, v, hwv, rfl⟩ := falters_function (hfalters 1) (.inr rfl) h
    exact ⟨.keyword .lambdaLetter :: w, v, hwv, rfl⟩
  · cases h
  · cases h
  · cases h
  · -- no expression starts with this token, but one could with another
    cases h
    exact ⟨[], _, .trueWord, rfl⟩

theorem falters_atom : Falters (Derives .atom) (atom inner) := by
  intro ts rest wanted h
  rcases eq_error_or_of_bind_eq_error h with hp | ⟨⟨p, ts₁⟩, hp, h₁⟩
  · obtain ⟨w, v, hwv, rfl⟩ :=
      falters_primary (fun k => hinner (k + 2)) (fun k => hfalters (k + 2)) hp
    exact ⟨w, v, .uncalled hwv, rfl⟩
  · obtain ⟨w, hw, rfl⟩ := consumes_primary (fun k => hinner (k + 2)) hp
    obtain ⟨w', v, hwv, rfl⟩ :=
      falters_calls (hinner 3) (hfalters 3) Derives.called _ _ (Derives.uncalled hw) h₁
    exact ⟨w ++ w', v, by simpa using hwv, by simp⟩

theorem falters_climb (budget : List Token) (threshold : Nat) (left : Term) {w₀ : List Token}
    (hleft : Derives .expression w₀) :
    ∀ ⦃ts rest : List Token⦄ ⦃wanted : Wanted⦄,
      climb inner budget threshold left ts = .error (.unwanted wanted rest) →
      ∃ w v, Derives .expression (w₀ ++ (w ++ v)) ∧ ts = w ++ rest := by
  induction budget generalizing inner threshold left w₀ with
  | nil =>
    intro ts rest wanted h
    rw [climb_nil] at h
    cases h
  | cons b budget ih =>
    intro ts rest wanted h
    unfold climb at h
    split at h
    · cases h
    · next op rest' hnext =>
      obtain ⟨symbol, rfl, hop, -⟩ := eq_of_nextInfix? hnext
      have hconsumes (k : Nat) := hinner (k + 1)
      have hoperand (k : Nat) := hfalters (k + 1)
      rcases eq_error_or_of_bind_eq_error h with hright | ⟨⟨right, ts₁⟩, hright, h₁⟩
      · obtain ⟨w, v, hwv, rfl⟩ := falters_atom hconsumes hoperand hright
        exact ⟨.operator symbol :: w, v, .joined hleft hop hwv, rfl⟩
      obtain ⟨w, hw, rfl⟩ := consumes_atom hconsumes hright
      -- with the right operand, what was read so far is an expression again
      have hjoined := Derives.joined hleft hop hw
      rcases eq_error_or_of_bind_eq_error h₁ with hright' | ⟨⟨right', ts₂⟩, hright', h₂⟩
      · obtain ⟨w', v, hwv, rfl⟩ := ih hconsumes hoperand _ _ hjoined hright'
        exact ⟨.operator symbol :: (w ++ w'), v, by simpa using hwv, by simp⟩
      · obtain ⟨w', hw', rfl⟩ := consumes_climb hconsumes _ _ _ hjoined hright'
        obtain ⟨w'', v, hwv, rfl⟩ := ih hinner hfalters _ _ hw' h₂
        exact ⟨.operator symbol :: (w ++ (w' ++ w'')), v, by simpa using hwv, by simp⟩

theorem falters_operation : Falters (Derives .expression) (operation inner) := by
  intro ts rest wanted h
  have hconsumes (k : Nat) := hinner (k + 1)
  have hoperand (k : Nat) := hfalters (k + 1)
  rcases eq_error_or_of_bind_eq_error h with hleft | ⟨⟨left, ts₁⟩, hleft, h₁⟩
  · obtain ⟨w, v, hwv, rfl⟩ := falters_atom hconsumes hoperand hleft
    exact ⟨w, v, .operand hwv, rfl⟩
  · obtain ⟨w, hw, rfl⟩ := consumes_atom hconsumes hleft
    obtain ⟨w', v, hwv, rfl⟩ := falters_climb hconsumes hoperand _ _ _ (.operand hw) h₁
    exact ⟨w ++ w', v, by simpa using hwv, by simp⟩

theorem falters_expressionWith : Falters (Derives .expression) (expressionWith inner) := by
  intro ts rest wanted h
  rcases eq_error_or_of_bind_eq_error h with he | ⟨⟨e, ts₁⟩, he, h₁⟩
  · exact falters_operation (fun k => hinner (k + 2)) (fun k => hfalters (k + 2)) he
  · obtain ⟨w, hw, rfl⟩ := consumes_operation (fun k => hinner (k + 2)) he
    obtain ⟨w', v, hwv, rfl⟩ := falters_calls (hinner 3) (hfalters 3) Derives.called_last _ _ hw h₁
    exact ⟨w ++ w', v, by simpa using hwv, by simp⟩

end Nesting

/-- The reader of expressions falters after the start of an expression. -/
theorem falters_expression (frames : Nat) :
    Falters (Derives .expression) (expression frames) :=
  nested_induction (fun _ _ _ h => nomatch h)
    (fun frames => falters_expressionWith (consumes_nested frames)) frames 0

/-! ### Programs -/

theorem falters_programWithin {frames : Nat} {budget ts rest : List Token} {wanted : Wanted}
    (h : programWithin frames budget ts = .error (.unwanted wanted rest)) :
    ∃ w v, Derives .program (w ++ v) ∧ ts = w ++ rest := by
  induction budget generalizing ts with
  | nil => cases ts <;> cases h
  | cons b budget ih =>
    cases ts with
    | nil => cases h
    | cons t ts =>
      rcases eq_error_or_of_bind_eq_error h with he | ⟨⟨e, ts₁⟩, he, h₁⟩
      · obtain ⟨w, v, hwv, hts⟩ := falters_expression frames he
        exact ⟨w, v, .program (.item hwv), hts⟩
      obtain ⟨w, hw, hts⟩ := consumes_expression frames he
      rw [hts]
      simp only at h₁
      split at h₁
      · cases h₁
      rcases eq_error_or_of_bind_eq_error h₁ with hmark | ⟨ts₂, hmark, h₂⟩
      · -- where a semicolon was wanted the program may also end
        obtain rfl := eq_of_expectMark_error hmark
        exact ⟨w, [], .program (.item (by simpa using hw)), rfl⟩
      obtain rfl := eq_of_expectMark hmark
      rcases eq_error_or_of_bind_eq_error h₂ with hes | ⟨es, -, h₃⟩
      · obtain ⟨w', v, hwv, rfl⟩ := ih hes
        refine ⟨w ++ .mark .semicolon :: w', v, ?_, by simp⟩
        have := hw.cons_program hwv
        simpa using this
      · cases h₃

/-- **Tokens before a rejected one are the start of a program.**  Whatever reader was at work when
the token was rejected, what it had begun can be finished, and so can what is around it. -/
theorem exists_derives_of_rejected {frames : Nat} {ts rest : List Token} {wanted : Wanted}
    (h : program frames ts = .error (.unwanted wanted rest)) :
    ∃ w v, Derives .program (w ++ v) ∧ ts = w ++ rest :=
  falters_programWithin h

end Lamlet.Grammar
