import Lamlet.Proofs.Grammar.Language

/-!
# Reading without a limit

The readers carry two kinds of fuel: the frames for what is nested, and the tokens as a
budget for each loop.  Neither decides what is read.  Every nested expression starts after
a token of its own, and so does every climb inside a climb; with frames enough for each of
the tokens the limit is never reached, and with fewer of them reading either runs out of
frames or gives the same result.

## Main definitions

* `Below` — two outcomes agree, unless the first one ran out of frames.
* `unlimited`, `unlimitedProgram` — the readers with as many frames as can be needed.
* `ParsesTo` — what reading a text comes to, depth limit aside.

## Main results

* `unlimited_eq` — the reader without a limit is its own reader of nested expressions.
* `nested_eq` — what is taken before a nested expression is missing from its frames.
* `expression_below_unlimited`, `expression_eq_unlimited` — the limit only cuts off.
* `moreItems_eq`, `calls_eq`, `climb_eq` — the loops without their budgets.
* `parsesTo_unlimited` — the outcome of every text, depth limit aside.
-/

namespace Lamlet

namespace Grammar

/-! ### Outcomes that agree -/

/-- Two outcomes agree; or the first one ran out of frames, where that is allowed. -/
def Below {α : Type} (allowed : Prop) (x y : Except Reject α) : Prop :=
  (x = y ∧ x ≠ .error .tooDeep) ∨ (allowed ∧ x = .error .tooDeep)

namespace Below

variable {α β : Type} {D : Prop}

theorem rfl_of_ne {x : Except Reject α} (h : x ≠ .error .tooDeep) : Below D x x :=
  .inl ⟨rfl, h⟩

theorem ok (a : α) : Below D (.ok a) (.ok a) :=
  rfl_of_ne (by simp)

theorem unwanted (wanted : Wanted) (rest : List Token) :
    Below D (.error (.unwanted wanted rest) : Except Reject α) (.error (.unwanted wanted rest)) :=
  rfl_of_ne (by simp)

/-- Steps that agree make up computations that agree. -/
theorem bind {x y : Except Reject α} {f g : α → Except Reject β} (h : Below D x y)
    (hfg : ∀ a, x = .ok a → Below D (f a) (g a)) : Below D (x >>= f) (y >>= g) := by
  rcases h with ⟨rfl, hne⟩ | ⟨hD, rfl⟩
  · cases x with
    | error e =>
      refine rfl_of_ne fun he => hne ?_
      cases he
      rfl
    | ok a => exact hfg a rfl
  · exact .inr ⟨hD, rfl⟩

end Below

theorem expectMark_below {D : Prop} (m : Punctuation) (ts : List Token) :
    Below D (expectMark m ts) (expectMark m ts) := by
  unfold expectMark
  split
  · exact .ok _
  · exact .unwanted _ _

theorem expectKeyword_below {D : Prop} (k : Keyword) (ts : List Token) :
    Below D (expectKeyword k ts) (expectKeyword k ts) := by
  unfold expectKeyword
  split
  · split
    · exact .ok _
    · exact .unwanted _ _
  · exact .unwanted _ _

theorem expectBranch_below {D : Prop} (ts : List Token) :
    Below D (expectBranch ts) (expectBranch ts) := by
  unfold expectBranch
  split
  · exact .ok _
  · exact expectKeyword_below _ _

theorem parameter_below {D : Prop} (ts : List Token) : Below D (parameter ts) (parameter ts) := by
  unfold parameter
  split
  · exact .ok _
  · exact .unwanted _ _

/-! ### How many tokens are left -/

theorem Consumes.length_le {α : Type} {L : List Token → Prop} {p : Reader α} (hp : Consumes L p)
    {ts rest : List Token} {a : α} (h : p ts = .ok (a, rest)) : rest.length ≤ ts.length := by
  obtain ⟨w, -, rfl⟩ := hp h
  simp

theorem length_of_expectMark {m : Punctuation} {ts rest : List Token}
    (h : expectMark m ts = .ok rest) : rest.length + 1 = ts.length := by
  rw [eq_of_expectMark h, List.length_cons]

theorem length_of_delimited {α : Type} {L : List Token → Prop} {item : Reader α}
    (hitem : Consumes L item) {start close separator : Punctuation} {ts rest : List Token}
    {xs : List α} (h : delimited start close separator item ts = .ok (xs, rest)) :
    rest.length < ts.length := by
  obtain ⟨_, ⟨v, -, rfl⟩, rfl⟩ := consumes_delimited hitem _ _ _ h
  simp only [List.length_append, List.length_cons]
  omega

theorem length_le_of_expectBranch {ts rest : List Token} (h : expectBranch ts = .ok rest) :
    rest.length ≤ ts.length := by
  unfold expectBranch at h
  split at h
  · obtain rfl := Except.ok.inj h
    exact Nat.le_refl _
  · rw [eq_of_expectKeyword h]
    simp

theorem length_le_of_climb {inner : Nested} (hinner : ∀ k, Consumes (Derives .expression) (inner k))
    {budget : List Token} {threshold : Nat} {left e : Term} {ts rest : List Token}
    (h : climb inner budget threshold left ts = .ok (e, rest)) :
    rest.length ≤ ts.length := by
  -- any left operand will do to see what the climb consumes
  obtain ⟨w, -, rfl⟩ := consumes_climb hinner _ _ _ (.operand (.uncalled .trueWord)) h
  simp

/-! ### Readers that agree on short texts

If two readers of nested expressions agree on fewer than `n` tokens, what is built on them
agrees on `n` tokens: nested expressions start after at least one token. -/

section Agreement

variable {D : Prop} {n : Nat}

theorem moreItems_below {α : Type} {L : List Token → Prop} {item item' : Reader α}
    (hitem : Consumes L item)
    (h : ∀ ts : List Token, ts.length < n → Below D (item ts) (item' ts))
    (close separator : Punctuation) (budget : List Token) :
    ∀ ts : List Token, ts.length ≤ n →
      Below D (moreItems close separator item budget ts)
        (moreItems close separator item' budget ts) := by
  induction budget with
  | nil =>
    intro ts hts
    unfold moreItems
    split
    · exact .ok _
    · exact .unwanted _ _
  | cons b budget ih =>
    intro ts hts
    unfold moreItems
    split
    · exact .ok _
    · -- the separator is gone, so that an item has fewer tokens than the row
      refine .bind (expectMark_below _ _) fun ts₁ h₁ => ?_
      have hlen := length_of_expectMark h₁
      refine .bind (h ts₁ (by omega)) ?_
      rintro ⟨x, ts₂⟩ h₂
      have hlen₂ := hitem.length_le h₂
      refine .bind (ih ts₂ (by omega)) ?_
      rintro ⟨xs, ts₃⟩ _
      exact .ok _

theorem delimited_below {α : Type} {L : List Token → Prop} {item item' : Reader α}
    (hitem : Consumes L item)
    (h : ∀ ts : List Token, ts.length < n → Below D (item ts) (item' ts))
    (start close separator : Punctuation) {ts : List Token} (hts : ts.length ≤ n) :
    Below D (delimited start close separator item ts)
      (delimited start close separator item' ts) := by
  refine .bind (expectMark_below _ _) fun ts₁ h₁ => ?_
  have hlen := length_of_expectMark h₁
  split
  · exact .ok _
  · refine .bind (h ts₁ (by omega)) ?_
    rintro ⟨x, ts₂⟩ h₂
    have hlen₂ := hitem.length_le h₂
    refine .bind (moreItems_below hitem h _ _ _ ts₂ (by omega)) ?_
    rintro ⟨xs, ts₃⟩ _
    exact .ok _

variable {inner inner' : Reader Term} (hinner : Consumes (Derives .expression) inner)
  (h : ∀ ts : List Token, ts.length < n → Below D (inner ts) (inner' ts))

include hinner h

theorem calls_below (budget : List Token) (callee : Term) :
    ∀ ts : List Token, ts.length ≤ n →
      Below D (calls inner budget callee ts) (calls inner' budget callee ts) := by
  induction budget generalizing callee with
  | nil =>
    intro ts hts
    rw [calls_nil, calls_nil]
    exact .ok _
  | cons b budget ih =>
    intro ts hts
    unfold calls
    split
    · refine .bind (delimited_below hinner h _ _ _ hts) ?_
      rintro ⟨args, ts₁⟩ h₁
      have hlen := length_of_delimited hinner h₁
      exact ih _ ts₁ (by omega)
    · exact .ok _

theorem conditional_below {ts : List Token} (hts : ts.length < n) :
    Below D (conditional inner ts) (conditional inner' ts) := by
  refine .bind (h ts hts) ?_
  rintro ⟨c, ts₁⟩ h₁
  have hlen₁ := hinner.length_le h₁
  refine .bind (expectBranch_below _) fun ts₂ h₂ => ?_
  have hlen₂ := length_le_of_expectBranch h₂
  refine .bind (h ts₂ (by omega)) ?_
  rintro ⟨t, ts₃⟩ h₃
  have hlen₃ := hinner.length_le h₃
  simp only
  split
  · next ts₄ =>
    simp only [List.length_cons] at hlen₃
    refine .bind (h ts₄ (by omega)) ?_
    rintro ⟨e, ts₅⟩ _
    exact .ok _
  · exact .ok _

omit hinner in
theorem function_below {ts : List Token} (hts : ts.length ≤ n) :
    Below D (function inner ts) (function inner' ts) := by
  refine .bind (delimited_below consumes_parameter (fun ts _ => parameter_below ts) _ _ _ hts) ?_
  rintro ⟨ps, ts₁⟩ h₁
  have hlen := length_of_delimited consumes_parameter h₁
  refine .bind (h ts₁ (by omega)) ?_
  rintro ⟨b, ts₂⟩ _
  exact .ok _

end Agreement

/-! ### Readers that agree as far as their frames go

A nested expression is at least a token further on.  The readers called on the way to it take
eight frames at most, its own included, besides those for climbs; and each climb inside a
climb starts after an operator of its own.  So if there are as many frames as `8 * ts.length`
for the tokens of an expression, there are as many for those of every expression nested in it. -/

section Frames

variable {D : Prop} {n : Nat} {inner inner' : Nested}
  (hinner : ∀ k, Consumes (Derives .expression) (inner k))
  (h : ∀ k (ts : List Token), k + 8 * ts.length < n → Below D (inner k ts) (inner' k ts))

omit hinner in
include h in
/-- A reader that is called with some of the frames leaves the others. -/
theorem below_below (frames k : Nat) (ts : List Token) (hts : k + 8 * ts.length < n - frames) :
    Below D (inner.below frames k ts) (inner'.below frames k ts) :=
  h (k + frames) ts (by omega)

include hinner h

theorem primary_below {ts : List Token} (hts : 8 * ts.length ≤ n + 5) :
    Below D (primary inner ts) (primary inner' ts) := by
  unfold primary
  -- what is nested starts behind the first token
  split <;> (try simp only [List.length_cons] at hts)
  · refine .bind (h 0 _ (by omega)) ?_
    rintro ⟨e, ts₁⟩ _
    exact .bind (expectMark_below _ _) fun _ _ => .ok _
  · next ts =>
    have hitem (ts' : List Token) (hlt : ts'.length < ts.length + 1) :
        Below D (inner 2 ts') (inner' 2 ts') := h 2 ts' (by omega)
    refine .bind (delimited_below (hinner 2) hitem _ _ _ (Nat.le_refl _)) ?_
    rintro ⟨es, ts₁⟩ _
    exact .ok _
  · next ts =>
    have hpart (ts' : List Token) (hlt : ts'.length < ts.length + 1) :
        Below D (inner 1 ts') (inner' 1 ts') := h 1 ts' (by omega)
    exact conditional_below (hinner 1) hpart (Nat.lt_succ_self _)
  · exact .ok _
  · exact .ok _
  · next ts =>
    have hbody (ts' : List Token) (hlt : ts'.length < ts.length) :
        Below D (inner 1 ts') (inner' 1 ts') := h 1 ts' (by omega)
    exact function_below hbody (Nat.le_refl _)
  · next ts =>
    have hbody (ts' : List Token) (hlt : ts'.length < ts.length) :
        Below D (inner 1 ts') (inner' 1 ts') := h 1 ts' (by omega)
    exact function_below hbody (Nat.le_refl _)
  · exact .ok _
  · exact .ok _
  · exact .ok _
  · exact .unwanted _ _

theorem atom_below {ts : List Token} (hts : 8 * ts.length ≤ n + 3) :
    Below D (atom inner ts) (atom inner' ts) := by
  refine .bind (primary_below (fun k => hinner (k + 2)) (below_below h 2) (by omega)) ?_
  rintro ⟨e, ts₁⟩ h₁
  have hlen := (consumes_primary fun k => hinner (k + 2)).length_le h₁
  have hargument (ts' : List Token) (hlt : ts'.length < ts₁.length) :
      Below D (inner 3 ts') (inner' 3 ts') := h 3 ts' (by omega)
  exact calls_below (hinner 3) hargument _ _ ts₁ (Nat.le_refl _)

theorem climb_below (budget : List Token) (threshold : Nat) (left : Term) :
    ∀ ts : List Token, 8 * ts.length ≤ n + 3 →
      Below D (climb inner budget threshold left ts) (climb inner' budget threshold left ts) := by
  induction budget generalizing inner inner' n threshold left with
  | nil =>
    intro ts hts
    rw [climb_nil, climb_nil]
    exact .ok _
  | cons b budget ih =>
    intro ts hts
    unfold climb
    split
    · exact .ok _
    · next op rest hnext =>
      obtain ⟨symbol, rfl, -, -⟩ := eq_of_nextInfix? hnext
      simp only [List.length_cons] at hts
      have hconsumes (k : Nat) := hinner (k + 1)
      refine .bind (atom_below hconsumes (below_below h 1) (by omega)) ?_
      rintro ⟨right, ts₁⟩ h₁
      have hlen₁ := (consumes_atom hconsumes).length_le h₁
      -- the climb inside has a frame less, and the operator less to read
      refine .bind (ih hconsumes (below_below h 1) _ _ ts₁ (by omega)) ?_
      rintro ⟨right', ts₂⟩ h₂
      have hlen₂ := length_le_of_climb hconsumes h₂
      exact ih hinner h _ _ ts₂ (by omega)

theorem operation_below {ts : List Token} (hts : 8 * ts.length ≤ n + 2) :
    Below D (operation inner ts) (operation inner' ts) := by
  have hconsumes (k : Nat) := hinner (k + 1)
  refine .bind (atom_below hconsumes (below_below h 1) (by omega)) ?_
  rintro ⟨left, ts₁⟩ h₁
  have hlen := (consumes_atom hconsumes).length_le h₁
  exact climb_below hconsumes (below_below h 1) _ _ _ ts₁ (by omega)

theorem expressionWith_below {ts : List Token} (hts : 8 * ts.length ≤ n) :
    Below D (expressionWith inner ts) (expressionWith inner' ts) := by
  refine .bind (operation_below (fun k => hinner (k + 2)) (below_below h 2) (by omega)) ?_
  rintro ⟨e, ts₁⟩ h₁
  have hlen := (consumes_operation fun k => hinner (k + 2)).length_le h₁
  have hargument (ts' : List Token) (hlt : ts'.length < ts₁.length) :
      Below D (inner 3 ts') (inner' 3 ts') := h 3 ts' (by omega)
  exact calls_below (hinner 3) hargument _ _ ts₁ (Nat.le_refl _)

end Frames

/-! ### The reader without a limit -/

/-- **What is taken before a nested expression is missing from its frames.** -/
theorem nested_eq (frames k : Nat) : nested frames k = expression (frames - k) := by
  induction frames generalizing k with
  | zero =>
    rw [Nat.zero_sub]
    rfl
  | succ frames ih =>
    cases k with
    | zero => rfl
    | succ k =>
      rw [Nat.add_sub_add_right]
      exact ih k

/-- A reader that is called with some of the frames has the others for what is nested. -/
theorem below_nested (frames k : Nat) : (nested frames).below k = nested (frames - k) := by
  funext j
  rw [nested_eq, Nat.sub_sub, Nat.add_comm k j]
  exact nested_eq frames (j + k)

/-- One more frame changes nothing but where reading ran out of frames. -/
theorem nested_below_succ (frames k : Nat) (ts : List Token) :
    Below True (nested frames k ts) (nested (frames + 1) k ts) := by
  induction frames generalizing k ts with
  | zero => exact .inr ⟨trivial, rfl⟩
  | succ frames ih =>
    cases k with
    | zero =>
      exact expressionWith_below (consumes_nested frames) (fun k ts _ => ih k ts)
        (Nat.le_refl (8 * ts.length))
    | succ k => exact ih k ts

/-- With frames enough for all the tokens, and those taken before, the limit is not reached. -/
theorem nested_ne_tooDeep {frames k : Nat} {ts : List Token} (h : k + 8 * ts.length < frames) :
    nested frames k ts ≠ .error .tooDeep := by
  induction frames generalizing k ts with
  | zero => omega
  | succ frames ih =>
    cases k with
    | zero =>
      -- an outcome that agrees with itself where running out is not allowed
      have hbelow : Below False (nested (frames + 1) 0 ts) (nested (frames + 1) 0 ts) :=
        expressionWith_below (consumes_nested frames)
          (fun k ts hts => Below.rfl_of_ne (ih hts)) (by omega)
      rcases hbelow with ⟨-, hne⟩ | ⟨hfalse, -⟩
      · exact hne
      · exact hfalse.elim
    | succ k => exact ih (by omega)

theorem expression_ne_tooDeep {frames : Nat} {ts : List Token} (h : 8 * ts.length < frames) :
    expression frames ts ≠ .error .tooDeep :=
  nested_ne_tooDeep (by omega)

theorem Below.trans {α : Type} {x y z : Except Reject α} (hxy : Below True x y)
    (hyz : Below True y z) : Below True x z := by
  rcases hxy with ⟨rfl, hne⟩ | hdeep
  · exact hyz
  · exact .inr hdeep

theorem expression_below {frames frames' : Nat} (h : frames ≤ frames') (ts : List Token) :
    Below True (expression frames ts) (expression frames' ts) := by
  induction frames' with
  | zero =>
    obtain rfl := Nat.le_zero.1 h
    exact .inr ⟨trivial, rfl⟩
  | succ frames' ih =>
    rcases Nat.le_or_eq_of_le_succ h with hle | rfl
    · exact (ih hle).trans (nested_below_succ frames' 0 ts)
    · by_cases hdeep : expression (frames' + 1) ts = .error .tooDeep
      · exact .inr ⟨trivial, hdeep⟩
      · exact .rfl_of_ne hdeep

theorem nested_below {frames frames' : Nat} (h : frames ≤ frames') (k : Nat) (ts : List Token) :
    Below True (nested frames k ts) (nested frames' k ts) := by
  rw [nested_eq, nested_eq]
  exact expression_below (Nat.sub_le_sub_right h k) ts

/-- The reader of expressions with as many frames as can be needed. -/
def unlimited : Reader Term := fun ts => expression (8 * ts.length + 1) ts

theorem unlimited_ne_tooDeep (ts : List Token) : unlimited ts ≠ .error .tooDeep :=
  expression_ne_tooDeep (Nat.lt_succ_self _)

/-- With frames enough for all its tokens an expression is read as without a limit. -/
theorem expression_eq_unlimited {frames : Nat} {ts : List Token} (h : 8 * ts.length < frames) :
    expression frames ts = unlimited ts := by
  rcases expression_below (Nat.succ_le_of_lt h) ts with ⟨heq, -⟩ | ⟨-, hdeep⟩
  · exact heq.symm
  · exact absurd hdeep (unlimited_ne_tooDeep ts)

/-- **A limit only cuts reading off.**  Within a limit an expression is read as it is without one,
with the same term or fault and the same tokens left, or the reader runs out of frames. -/
theorem expression_below_unlimited (frames : Nat) (ts : List Token) :
    Below True (expression frames ts) (unlimited ts) := by
  -- compare both with a limit above the given one and large enough for the tokens
  rw [← expression_eq_unlimited (Nat.lt_succ_of_le (Nat.le_max_right frames (8 * ts.length)))]
  exact expression_below (Nat.le_succ_of_le (Nat.le_max_left _ _)) ts

theorem nested_below_unlimited (frames k : Nat) (ts : List Token) :
    Below True (nested frames k ts) (unlimited ts) := by
  rw [nested_eq]
  exact expression_below_unlimited _ ts

theorem consumes_unlimited : Consumes (Derives .expression) unlimited :=
  fun _ _ _ h => consumes_expression _ h

/-- **The reader without a limit is its own reader of nested expressions.** -/
theorem unlimited_eq (ts : List Token) : unlimited ts = expressionWith unlimited ts := by
  -- inside, nested expressions are read with a limit on one side only
  have hbelow : Below True (expression (8 * ts.length + 1) ts) (expressionWith unlimited ts) :=
    expressionWith_below (consumes_nested _)
      (fun k ts' _ => nested_below_unlimited _ k ts') (Nat.le_refl (8 * ts.length))
  rcases hbelow with ⟨heq, -⟩ | ⟨-, hdeep⟩
  · exact heq
  · exact absurd hdeep (unlimited_ne_tooDeep ts)

/-- With more frames an operand is read in the same way, unless it ran out of them. -/
theorem atom_below_of_le {frames frames' : Nat} (h : frames ≤ frames') (ts : List Token) :
    Below True (atom (nested frames) ts) (atom (nested frames') ts) :=
  atom_below (consumes_nested frames) (fun k ts _ => nested_below h k ts)
    (Nat.le_add_right (8 * ts.length) 3)

theorem atom_below_unlimited (frames : Nat) (ts : List Token) :
    Below True (atom (nested frames) ts) (atom unlimited ts) :=
  atom_below (consumes_nested frames) (fun k ts _ => nested_below_unlimited frames k ts)
    (Nat.le_add_right (8 * ts.length) 3)

/-! ### Programs -/

theorem programWithin_below {D : Prop} {n frames frames' : Nat}
    (h : ∀ ts : List Token, ts.length ≤ n → Below D (expression frames ts) (expression frames' ts))
    (budget : List Token) :
    ∀ ts : List Token, ts.length ≤ n →
      Below D (programWithin frames budget ts) (programWithin frames' budget ts) := by
  induction budget with
  | nil =>
    intro ts _
    cases ts with
    | nil => exact .ok _
    | cons t ts => exact .ok _
  | cons b budget ih =>
    intro ts hts
    cases ts with
    | nil => exact .ok _
    | cons t ts =>
      refine .bind (h _ hts) ?_
      rintro ⟨e, ts₁⟩ h₁
      have hlen := (consumes_expression frames).length_le h₁
      simp only
      split
      · exact .ok _
      · refine .bind (expectMark_below _ _) fun ts₂ h₂ => ?_
        have hlen₂ := length_of_expectMark h₂
        exact .bind (ih ts₂ (by omega)) fun es _ => .ok _

/-- The reader of programs with as many frames as can be needed. -/
def unlimitedProgram (ts : List Token) : Except Reject (List Term) :=
  program (8 * ts.length + 1) ts

theorem unlimitedProgram_ne_tooDeep (ts : List Token) :
    unlimitedProgram ts ≠ .error .tooDeep := by
  have hbelow : Below False (unlimitedProgram ts) (unlimitedProgram ts) := by
    refine programWithin_below (fun ts' hts' => Below.rfl_of_ne ?_) ts ts (Nat.le_refl _)
    exact expression_ne_tooDeep (by omega)
  rcases hbelow with ⟨-, hne⟩ | ⟨hfalse, -⟩
  · exact hne
  · exact hfalse.elim

theorem program_eq_unlimitedProgram {frames : Nat} {ts : List Token} (h : 8 * ts.length < frames) :
    program frames ts = unlimitedProgram ts := by
  have hbelow : Below True (unlimitedProgram ts) (program frames ts) :=
    programWithin_below (fun ts' _ => expression_below (by omega) ts') ts ts (Nat.le_refl _)
  rcases hbelow with ⟨heq, -⟩ | ⟨-, hdeep⟩
  · exact heq.symm
  · exact absurd hdeep (unlimitedProgram_ne_tooDeep ts)

theorem program_below_unlimitedProgram (frames : Nat) (ts : List Token) :
    Below True (program frames ts) (unlimitedProgram ts) := by
  rw [← program_eq_unlimitedProgram (Nat.lt_succ_of_le (Nat.le_max_right frames (8 * ts.length)))]
  refine programWithin_below (fun ts' _ => expression_below ?_ ts') ts ts (Nat.le_refl _)
  exact Nat.le_succ_of_le (Nat.le_max_left _ _)

/-! ### Loops without their budgets

A loop that starts with all its tokens as budget never uses it up, so any budget that
covers the tokens gives the same result. -/

theorem bind_congr_ok {ε α β : Type} {x : Except ε α} {f g : α → Except ε β}
    (h : ∀ a, x = .ok a → f a = g a) : (x >>= f) = (x >>= g) := by
  cases x with
  | error e => rfl
  | ok a => exact h a rfl

/-- Induction on two budgets that both cover the tokens: every round of a loop takes one
from each budget, and leaves fewer tokens. -/
theorem covered_induction {motive : List Token → List Token → List Token → Prop}
    (finished : ∀ budget budget', motive budget budget' [])
    (round : ∀ b b' budget budget' t ts,
      (∀ ts', ts'.length ≤ ts.length → motive budget budget' ts') →
      motive (b :: budget) (b' :: budget') (t :: ts))
    {budget budget' ts : List Token} (h : ts.length ≤ budget.length)
    (h' : ts.length ≤ budget'.length) : motive budget budget' ts := by
  induction budget generalizing budget' ts with
  | nil =>
    obtain rfl := List.length_eq_zero_iff.1 (Nat.le_zero.1 h)
    exact finished [] budget'
  | cons b budget ih =>
    cases ts with
    | nil => exact finished (b :: budget) budget'
    | cons t ts =>
      cases budget' with
      | nil => simp at h'
      | cons b' budget' =>
        refine round b b' budget budget' t ts fun ts' hts' => ?_
        simp only [List.length_cons] at h h'
        exact ih (by omega) (by omega)

section Budgets

theorem moreItems_budget {α : Type} {L : List Token → Prop} {item : Reader α}
    (hitem : Consumes L item) (close separator : Punctuation) {budget budget' ts : List Token}
    (h : ts.length ≤ budget.length) (h' : ts.length ≤ budget'.length) :
    moreItems close separator item budget ts = moreItems close separator item budget' ts := by
  refine covered_induction (motive := fun budget budget' ts =>
    moreItems close separator item budget ts = moreItems close separator item budget' ts) ?_ ?_ h h'
  · intro budget budget'
    cases budget <;> cases budget' <;> rfl
  · intro b b' budget budget' t ts ih
    unfold moreItems
    split
    · rfl
    · refine bind_congr_ok ?_
      intro ts₁ h₁
      refine bind_congr_ok ?_
      rintro ⟨x, ts₂⟩ h₂
      -- an item takes a token, so that both budgets cover what it leaves
      have hlen₁ := length_of_expectMark h₁
      have hlen₂ := hitem.length_le h₂
      simp only [List.length_cons] at hlen₁
      simp only [ih ts₂ (by omega)]

/-- The items after the first one, without a budget. -/
theorem moreItems_eq {α : Type} {L : List Token → Prop} {item : Reader α}
    (hitem : Consumes L item) (close separator : Punctuation) (ts : List Token) :
    moreItems close separator item ts ts =
      if opens close ts then .ok ([], ts.tail)
      else do
        let ts ← expectMark separator ts
        let (x, ts) ← item ts
        let (xs, ts) ← moreItems close separator item ts ts
        return (x :: xs, ts) := by
  cases ts with
  | nil => rfl
  | cons t ts =>
    rw [moreItems]
    split
    · rfl
    · refine bind_congr_ok ?_
      intro ts₁ h₁
      refine bind_congr_ok ?_
      rintro ⟨x, ts₂⟩ h₂
      have hlen₁ := length_of_expectMark h₁
      have hlen₂ := hitem.length_le h₂
      simp only [List.length_cons] at hlen₁
      have hrest : moreItems close separator item ts ts₂ = moreItems close separator item ts₂ ts₂ :=
        moreItems_budget hitem close separator (by omega) (Nat.le_refl _)
      simp only [hrest]

section

variable {inner : Reader Term} (hinner : Consumes (Derives .expression) inner)

include hinner

theorem calls_budget (callee : Term) {budget budget' ts : List Token}
    (h : ts.length ≤ budget.length) (h' : ts.length ≤ budget'.length) :
    calls inner budget callee ts = calls inner budget' callee ts := by
  refine covered_induction (motive := fun budget budget' ts =>
    ∀ callee, calls inner budget callee ts = calls inner budget' callee ts) ?_ ?_ h h' callee
  · intro budget budget' callee
    cases budget <;> cases budget' <;> rfl
  · intro b b' budget budget' t ts ih callee
    unfold calls
    split
    · refine bind_congr_ok ?_
      rintro ⟨args, ts₁⟩ h₁
      have hlen := length_of_delimited hinner h₁
      simp only [List.length_cons] at hlen
      exact ih ts₁ (by omega) _
    · rfl

/-- The calls that follow an operand, without a budget. -/
theorem calls_eq (callee : Term) (ts : List Token) :
    calls inner ts callee ts =
      if opens .leftParen ts then do
        let (arguments, ts) ← delimited .leftParen .rightParen .comma inner ts
        calls inner ts (.call callee arguments) ts
      else
        .ok (callee, ts) := by
  cases ts with
  | nil => rfl
  | cons t ts =>
    rw [calls]
    split
    · refine bind_congr_ok ?_
      rintro ⟨args, ts₁⟩ h₁
      have hlen := length_of_delimited hinner h₁
      simp only [List.length_cons] at hlen
      exact calls_budget hinner _ (by omega) (Nat.le_refl _)
    · rfl

end

variable {inner : Nested} (hinner : ∀ k, Consumes (Derives .expression) (inner k))

include hinner

theorem climb_budget (threshold : Nat) (left : Term) {budget budget' ts : List Token}
    (h : ts.length ≤ budget.length) (h' : ts.length ≤ budget'.length) :
    climb inner budget threshold left ts = climb inner budget' threshold left ts := by
  refine covered_induction (motive := fun budget budget' ts => ∀ {inner : Nested},
    (∀ k, Consumes (Derives .expression) (inner k)) → ∀ threshold left,
      climb inner budget threshold left ts = climb inner budget' threshold left ts)
    ?_ ?_ h h' hinner threshold left
  · intro budget budget' inner _ threshold left
    cases budget <;> cases budget' <;> rfl
  · intro b b' budget budget' t ts ih inner hinner threshold left
    unfold climb
    split
    · rfl
    · next op rest hnext =>
      obtain ⟨symbol, hts, -, -⟩ := eq_of_nextInfix? hnext
      obtain ⟨-, rfl⟩ := List.cons.inj hts
      -- the right operand is read one frame further in
      have hconsumes (k : Nat) := hinner (k + 1)
      refine bind_congr_ok ?_
      rintro ⟨right, ts₁⟩ h₁
      have hlen₁ := (consumes_atom hconsumes).length_le h₁
      simp only [ih ts₁ hlen₁ hconsumes]
      refine bind_congr_ok ?_
      rintro ⟨right', ts₂⟩ h₂
      have hlen₂ := length_le_of_climb hconsumes h₂
      exact ih ts₂ (by omega) hinner threshold _

/-- Precedence climbing, without a budget. -/
theorem climb_eq (threshold : Nat) (left : Term) (ts : List Token) :
    climb inner ts threshold left ts =
      (match nextInfix? threshold ts with
      | none => .ok (left, ts)
      | some (op, rest) => do
        let (right, ts) ← atom (inner.below 1) rest
        let (right, ts) ← climb (inner.below 1) ts op.precedence right ts
        climb inner ts threshold (join op left right) ts) := by
  cases ts with
  | nil => rfl
  | cons t ts =>
    rw [climb]
    cases hnext : nextInfix? threshold (t :: ts) with
    | none => rfl
    | some next =>
      obtain ⟨op, rest⟩ := next
      obtain ⟨symbol, hts, -, -⟩ := eq_of_nextInfix? hnext
      obtain ⟨-, rfl⟩ := List.cons.inj hts
      have hconsumes (k : Nat) := hinner (k + 1)
      refine bind_congr_ok ?_
      rintro ⟨right, ts₁⟩ h₁
      have hlen₁ := (consumes_atom hconsumes).length_le h₁
      -- what is left shrinks in every round, so the budget may be taken anew
      simp only [climb_budget hconsumes op.precedence right hlen₁ (Nat.le_refl ts₁.length)]
      refine bind_congr_ok ?_
      rintro ⟨right', ts₂⟩ h₂
      have hlen₂ := Nat.le_trans (length_le_of_climb hconsumes h₂) hlen₁
      exact climb_budget hinner threshold _ hlen₂ (Nat.le_refl _)

end Budgets

/-- The same without a limit. -/
theorem climb_unlimited (threshold : Nat) (left : Term) (ts : List Token) :
    climb unlimited ts threshold left ts =
      (match nextInfix? threshold ts with
      | none => .ok (left, ts)
      | some (op, rest) => do
        let (right, ts) ← atom unlimited rest
        let (right, ts) ← climb unlimited ts op.precedence right ts
        climb unlimited ts threshold (join op left right) ts) :=
  climb_eq (fun _ => consumes_unlimited) threshold left ts

theorem programWithin_budget (frames : Nat) {budget budget' ts : List Token}
    (h : ts.length ≤ budget.length) (h' : ts.length ≤ budget'.length) :
    programWithin frames budget ts = programWithin frames budget' ts := by
  refine covered_induction (motive := fun budget budget' ts =>
    programWithin frames budget ts = programWithin frames budget' ts) ?_ ?_ h h'
  · intro budget budget'
    cases budget <;> cases budget' <;> rfl
  · intro b b' budget budget' t ts ih
    refine bind_congr_ok ?_
    rintro ⟨e, ts₁⟩ h₁
    have hlen₁ := (consumes_expression frames).length_le h₁
    simp only
    split
    · rfl
    · refine bind_congr_ok fun ts₂ h₂ => ?_
      have hlen₂ := length_of_expectMark h₂
      simp only [List.length_cons] at hlen₁
      rw [ih ts₂ (by omega)]

/-- A program is an expression and, after a semicolon, the rest of the program. -/
theorem program_cons (frames : Nat) (t : Token) (ts : List Token) :
    program frames (t :: ts) = do
      let (e, ts) ← expression frames (t :: ts)
      match ts with
      | [] => return [e]
      | ts =>
        let ts ← expectMark .semicolon ts
        let es ← program frames ts
        return e :: es := by
  rw [program]
  simp only [programWithin]
  refine bind_congr_ok ?_
  rintro ⟨e, ts₁⟩ h₁
  have hlen₁ := (consumes_expression frames).length_le h₁
  cases ts₁ with
  | nil => rfl
  | cons t₁ ts₁ =>
    refine bind_congr_ok fun ts₂ h₂ => ?_
    have hlen₂ := length_of_expectMark h₂
    simp only [List.length_cons] at hlen₁ hlen₂
    have hrest : programWithin frames ts ts₂ = program frames ts₂ :=
      programWithin_budget frames (by omega) (Nat.le_refl ts₂.length)
    rw [hrest]

/-- The same without a limit. -/
theorem unlimitedProgram_cons (t : Token) (ts : List Token) :
    unlimitedProgram (t :: ts) = do
      let (e, ts) ← unlimited (t :: ts)
      match ts with
      | [] => return [e]
      | ts =>
        let ts ← expectMark .semicolon ts
        let es ← unlimitedProgram ts
        return e :: es := by
  rw [unlimitedProgram, program_cons, expression_eq_unlimited (Nat.lt_succ_self _)]
  refine bind_congr_ok ?_
  rintro ⟨e, ts₁⟩ h₁
  have hlen₁ := consumes_unlimited.length_le h₁
  cases ts₁ with
  | nil => rfl
  | cons t₁ ts₁ =>
    refine bind_congr_ok fun ts₂ h₂ => ?_
    have hlen₂ := length_of_expectMark h₂
    rw [program_eq_unlimitedProgram (by omega)]

end Grammar

/-! ### Whole texts -/

/-- What reading a text comes to, depth limit aside: every limit that is large enough
gives this outcome, and no limit gives another one. -/
structure ParsesTo (source : String) (outcome : Except ParseFailure (List Term)) : Prop where
  /-- A limit that is large enough gives the outcome. -/
  eventually : ∃ limit, ∀ frames, limit ≤ frames → parse frames source = outcome
  /-- A smaller one gives it as well, or is reached. -/
  always : ∀ frames, parse frames source = outcome ∨ parse frames source = .error .tooDeep

/-- The outcome is determined: two limits that are large enough agree. -/
theorem ParsesTo.unique {source : String} {outcome outcome' : Except ParseFailure (List Term)}
    (h : ParsesTo source outcome) (h' : ParsesTo source outcome') : outcome = outcome' := by
  obtain ⟨limit, hlimit⟩ := h.eventually
  obtain ⟨limit', hlimit'⟩ := h'.eventually
  rw [← hlimit (max limit limit') (Nat.le_max_left _ _)]
  exact hlimit' (max limit limit') (Nat.le_max_right _ _)

namespace Lexed

theorem parse_congr {l : Lexed} {frames frames' : Nat}
    (h : Grammar.program frames (l.tokens.map (·.token))
      = Grammar.program frames' (l.tokens.map (·.token))) :
    l.parse frames = l.parse frames' := by
  unfold parse
  rw [h]

/-- The fault of rejected tokens is what stopped them, or what the grammar wanted. -/
theorem rejection_cases (l : Lexed) (wanted : Wanted) (rest : List Token) :
    (rest = [] ∧ ∃ fault, l.fault? = some fault ∧
      l.rejection wanted rest = .fault fault l.stop.place) ∨
    ((rest = [] → l.fault? = none) ∧ l.rejection wanted rest
      = .fault (.atPlace (.syntactic wanted rest.head?) (l.placeOf rest)) (l.placeOf rest)) := by
  cases rest with
  | cons t rest => exact .inr ⟨fun h => absurd h (List.cons_ne_nil t rest), rfl⟩
  | nil =>
    cases hfault : l.fault? with
    | some fault => exact .inl ⟨rfl, fault, rfl, by simp only [rejection, hfault]⟩
    | none => exact .inr ⟨fun _ => rfl, by simp only [rejection, hfault]⟩

/-- A text is a program if all of it was read and its tokens make that program. -/
theorem parse_eq_ok_iff {l : Lexed} {frames : Nat} {es : List Term} :
    l.parse frames = .ok es ↔
      l.trouble = none ∧ Grammar.program frames (l.tokens.map (·.token)) = .ok es := by
  unfold parse
  cases Grammar.program frames (l.tokens.map (·.token)) with
  | error reject => cases reject <;> simp
  | ok es' => cases htrouble : l.trouble <;> simp [fault?, htrouble]

theorem parse_eq_tooDeep_iff {l : Lexed} {frames : Nat} :
    l.parse frames = .error .tooDeep ↔
      Grammar.program frames (l.tokens.map (·.token)) = .error .tooDeep := by
  unfold parse
  cases Grammar.program frames (l.tokens.map (·.token)) with
  | error reject =>
    cases reject with
    | tooDeep => simp
    | unwanted wanted rest =>
      rcases l.rejection_cases wanted rest with ⟨-, fault, -, hrejection⟩ | ⟨-, hrejection⟩ <;>
        simp [hrejection]
  | ok es => cases htrouble : l.trouble <;> simp [fault?, htrouble]

/-- The terms that the tokens of a text denote, depth limit aside. -/
def unlimitedParse (l : Lexed) : Except ParseFailure (List Term) :=
  l.parse (8 * (l.tokens.map (·.token)).length + 1)

/-- Tokens that all were read and make a program denote its terms. -/
theorem unlimitedParse_of_program {l : Lexed} {es : List Term} (hlex : l.trouble = none)
    (h : Grammar.unlimitedProgram (l.tokens.map (·.token)) = .ok es) :
    l.unlimitedParse = .ok es :=
  parse_eq_ok_iff.2 ⟨hlex, h⟩

end Lexed

/-- **Every text has an outcome, depth limit aside.**  It is what comes of reading without a
limit: all limits that are large enough for the tokens give it, and every other one gives it or is
met. -/
theorem parsesTo_unlimited (source : String) : ParsesTo source (lex source).unlimitedParse := by
  refine ⟨⟨8 * (lex source).tokens.length + 1, fun frames hframes => ?_⟩, fun frames => ?_⟩
  · refine Lexed.parse_congr (Grammar.program_eq_unlimitedProgram ?_)
    rw [List.length_map]
    exact hframes
  · rcases Grammar.program_below_unlimitedProgram frames
      ((lex source).tokens.map (·.token)) with ⟨heq, -⟩ | ⟨-, hdeep⟩
    · exact .inl (Lexed.parse_congr heq)
    · refine .inr ?_
      rw [Lamlet.parse, Lexed.parse, hdeep]

/-- A program that is read within some limit is the outcome, depth limit aside. -/
theorem ParsesTo.of_parse {frames : Nat} {source : String} {program : List Term}
    (h : parse frames source = .ok program) : ParsesTo source (.ok program) := by
  have hparse := parsesTo_unlimited source
  rcases hparse.always frames with heq | hdeep
  · rw [← heq, h] at hparse
    exact hparse
  · rw [h] at hdeep
    cases hdeep

/-- A text is read as the program that its tokens make. -/
theorem ParsesTo.of_tokens {source : String} {ts : List Token} {program : List Term}
    (htokens : (lex source).tokens.map (·.token) = ts) (htrouble : (lex source).trouble = none)
    (hprogram : Grammar.unlimitedProgram ts = .ok program) : ParsesTo source (.ok program) := by
  rw [← htokens] at hprogram
  have hparse := parsesTo_unlimited source
  rwa [Lexed.unlimitedParse_of_program htrouble hprogram] at hparse

/-- The same within a limit that so few tokens do not meet. -/
theorem parse_of_tokens {frames : Nat} {source : String} {ts : List Token} {program : List Term}
    (htokens : (lex source).tokens.map (·.token) = ts) (htrouble : (lex source).trouble = none)
    (hprogram : Grammar.unlimitedProgram ts = .ok program)
    (hfew : 8 * ts.length < frames) : parse frames source = .ok program := by
  refine Lexed.parse_eq_ok_iff.2 ⟨htrouble, ?_⟩
  rw [htokens, Grammar.program_eq_unlimitedProgram hfew]
  exact hprogram

end Lamlet
