import Lamlet.Proofs.Eval.Depth
import Lamlet.Proofs.Grammar.Extension
import Lamlet.Proofs.Token.Layout

/-!
# A program in brackets

The expressions of a program and those of a block are read by two loops, with other rules for
the separator and for the end.  On a program that no semicolon ends both read the same: in
braces it is a block of its expressions, and a single expression can stand in round brackets as
well.  A block evaluates as the program does, and takes one frame more unless it is a single
expression.

## Main definitions

* `enclosed` — a text in brackets.
* `extraFrames` — the frames that a block takes more than a program.

## Main results

* `Grammar.steady_unlimited` — the reader without a limit is not misled by what follows.
* `Grammar.readsItems_of_program` — **a row of expressions is read as a program is.**
* `run_blockOf`, `run_blockOf_of_ne_exhausted` — a block evaluates as its expressions do.
* `parsesTo_enclosed` — **a program in brackets is the same program.**
-/

namespace Lamlet

namespace Grammar

/-! ### Rows and programs -/

theorem steady_unlimited {behind : List Token} (h : Ends 1 behind) : Steady behind unlimited := by
  intro ts rest e hread
  -- a limit that is large enough with the tokens behind and without them
  have hlength : 8 * ts.length < 8 * (ts ++ behind).length + 1 := by
    rw [List.length_append]
    omega
  rw [← expression_eq_unlimited hlength] at hread
  exact steady_expression h _ hread

/-- **A row of expressions is read as a program is,** if no semicolon ends it. -/
theorem readsItems_of_program {close : Punctuation} (hparen : close ≠ .leftParen)
    (hsemicolon : close ≠ .semicolon) {ts : List Token} {es : List Term}
    (h : unlimitedProgram ts = .ok es) (hne : ts ≠ [])
    (hlast : ts.getLast? ≠ some (.mark .semicolon)) (rest : List Token) :
    ReadsItems close .semicolon (ts ++ .mark close :: rest) es rest := by
  induction hn : ts.length using Nat.strongRecOn generalizing ts es with
  | ind n ih =>
    obtain ⟨t, ts, rfl⟩ := List.exists_cons_of_ne_nil hne
    rw [unlimitedProgram_cons] at h
    obtain ⟨⟨e, left⟩, hread, hafter⟩ := exists_of_bind_eq_ok h
    have hbehind := steady_unlimited (ends_mark close hparen 1 rest) hread
    cases left with
    | nil =>
      obtain rfl := Except.ok.inj hafter
      exact readsItems_one _ hbehind
    | cons t' left =>
      obtain ⟨us, hmark, hmore⟩ := exists_of_bind_eq_ok hafter
      obtain ⟨rfl, rfl⟩ := List.cons.inj (eq_of_expectMark hmark)
      obtain ⟨fs, hfs, hes⟩ := exists_of_bind_eq_ok hmore
      obtain rfl := Except.ok.inj hes
      obtain ⟨w, -, hsplit⟩ := consumes_unlimited hread
      rw [hsplit] at hlast hn
      -- a semicolon at the end is excluded, so that there is more
      have hleft : left ≠ [] := by
        rintro rfl
        simp at hlast
      have hlast' : left.getLast? ≠ some (.mark .semicolon) := by
        simpa [List.getLast?_append, List.getLast?_cons_of_ne_nil hleft, hleft] using hlast
      have hlength : left.length < n := by
        rw [← hn, List.length_append, List.length_cons]
        omega
      exact readsItems_more hsemicolon.symm hbehind (ih _ hlength hfs hleft hlast' rfl)

/-- A row of one expression is that expression. -/
theorem unlimited_of_readsItems {close separator : Punctuation} {ts rest : List Token} {e : Term}
    (h : ReadsItems close separator ts [e] rest) :
    unlimited ts = .ok (e, .mark close :: rest) := by
  obtain ⟨e', es', ts', hread, hmore, hes⟩ := h
  obtain ⟨rfl, rfl⟩ := List.cons.inj hes
  rw [moreItems_eq consumes_unlimited] at hmore
  split at hmore
  · next hopens =>
    obtain ⟨rest', rfl⟩ := opens_iff.1 hopens
    obtain ⟨-, rfl⟩ := Prod.mk.inj (Except.ok.inj hmore)
    exact hread
  · -- an item after a separator would be another expression
    obtain ⟨ts₁, -, h₁⟩ := exists_of_bind_eq_ok hmore
    obtain ⟨⟨x, ts₂⟩, -, h₂⟩ := exists_of_bind_eq_ok h₁
    obtain ⟨⟨xs, ts₃⟩, -, h₃⟩ := exists_of_bind_eq_ok h₂
    cases h₃

/-- An operand alone is a program. -/
theorem unlimitedProgram_of_primary {ts : List Token} {e : Term}
    (h : primary unlimited ts = .ok (e, [])) : unlimitedProgram ts = .ok [e] := by
  have hatom : atom unlimited ts = .ok (e, []) := by rw [atom_eq h, calls_of_not_opens rfl]
  exact unlimitedProgram_of_last (unlimited_of_atom hatom stops_nil)

section

variable {ts : List Token} {es : List Term} (h : unlimitedProgram ts = .ok es)
  (hlast : ts.getLast? ≠ some (.mark .semicolon))

include h hlast

/-- A program in braces is a block. -/
theorem unlimitedProgram_braced :
    unlimitedProgram (.mark .leftBrace :: (ts ++ [.mark .rightBrace])) = .ok [blockOf es] := by
  refine unlimitedProgram_of_primary (primary_block ?_)
  cases ts with
  | nil =>
    obtain rfl := Except.ok.inj h
    exact delimited_nil _ _ _ _ _
  | cons t ts =>
    exact delimited_of_readsItems _ (.inr rfl)
      (readsItems_of_program (by simp) (by simp) h (by simp) hlast [])

/-- A single expression in round brackets is that expression. -/
theorem unlimitedProgram_bracketed {e : Term} (hes : es = [e]) :
    unlimitedProgram (.mark .leftParen :: (ts ++ [.mark .rightParen])) = .ok [e] := by
  subst hes
  have hne : ts ≠ [] := by
    rintro rfl
    cases h
  have hrow : ReadsItems .rightParen .semicolon (ts ++ [.mark .rightParen]) [e] [] :=
    readsItems_of_program (by simp) (by simp) h hne hlast []
  exact unlimitedProgram_of_primary (primary_grouped (unlimited_of_readsItems hrow))

end

end Grammar

/-! ### Texts -/

/-- A text in brackets, the closing one on a line of its own. -/
def enclosed (start close : Punctuation) (source : String) : String :=
  start.text ++ source ++ "\n" ++ close.text

theorem lexes_enclosed (start close : Punctuation) {source : String} {ts : List Token}
    (h : Lexes source.toList ts) :
    Lexes (enclosed start close source).toList (.mark start :: (ts ++ [.mark close])) := by
  have hclose : Lexes [close.toChar] [.mark close] := .token (scan_mark close []) .nil
  have hall := Lexes.token (scan_mark start _) (h.append_newline hclose)
  simpa [enclosed, Punctuation.text] using hall

/-- The tokens of a program, and what they are read as without a limit. -/
theorem ParsesTo.program {source : String} {es : List Term} (h : ParsesTo source (.ok es)) :
    Lexes source.toList (tokensOf source) ∧
      Grammar.unlimitedProgram (tokensOf source) = .ok es := by
  have hparse := (h.unique (parsesTo_unlimited source)).symm
  obtain ⟨htrouble, hprogram⟩ := Lexed.parse_eq_ok_iff.1 hparse
  exact ⟨lexes_tokensOf htrouble, hprogram⟩

/-! ### Evaluation -/

/-- The frames that expressions take more as a block than as a program. -/
def extraFrames (es : List Term) : Nat := if es.length = 1 then 0 else 1

/-- A block evaluates as its expressions do, at one more level unless there is only one. -/
theorem run_blockOf (tracing : Bool) (frames : Nat) (es : List Term) (scope : ScopeId)
    (w : World) :
    run tracing (frames + extraFrames es) (.block [Grammar.blockOf es]) scope w
      = run tracing frames (.block es) scope w := by
  cases es with
  | nil => cases frames <;> rfl
  | cons e es =>
    cases es with
    | nil => rfl
    | cons e' es =>
      -- only a block of several expressions is a term of its own, with a frame of its own
      have hevaluate : evaluate tracing (frames + 1) (.block [.block (e :: e' :: es)]) scope
          = evaluate tracing frames (.block (e :: e' :: es)) scope :=
        bind_pure (evaluate tracing frames (.block (e :: e' :: es)) scope)
      rw [show extraFrames (e :: e' :: es) = 1 from rfl, run_eq, run_eq]
      exact congrArg (fun r => (Run.reportOf (r w), Run.worldOf (r w))) hevaluate

/-- The same within one limit, if the block does not meet it. -/
theorem run_blockOf_of_ne_exhausted {frames : Nat} {es : List Term} {scope : ScopeId} {w : World}
    (h : (run false frames (.block [Grammar.blockOf es]) scope w).1
      ≠ .error { cause := .stackExhausted }) :
    run false frames (.block [Grammar.blockOf es]) scope w
      = run false frames (.block es) scope w := by
  by_cases hone : es.length = 1
  · have hsame := run_blockOf false frames es scope w
    rwa [extraFrames, if_pos hone, Nat.add_zero] at hsame
  · cases frames with
    | zero => exact absurd rfl h
    | succ frames =>
      have hsame := run_blockOf false frames es scope w
      rw [extraFrames, if_neg hone] at hsame
      rw [hsame] at h ⊢
      -- one frame more than the expressions need does not matter
      rcases evaluate_of_le (Nat.le_succ frames) (.block es) scope w with hmore | ⟨w', hmet, -⟩
      · rw [run_eq, run_eq, hmore]
      · rw [run_eq, hmet] at h
        exact absurd rfl h

/-! ### Programs in brackets -/

/-- **A program in brackets is the same program,** if no semicolon ends it.  In braces it is
read as a block of its expressions, and a single expression is itself in round brackets too.
The block evaluates as the program does, in every world: with a limit larger by the frame that
it takes, and within the same limit if it does not meet it. -/
theorem parsesTo_enclosed {source : String} {es : List Term} (hsource : ParsesTo source (.ok es))
    (hlast : (tokensOf source).getLast? ≠ some (.mark .semicolon)) :
    ParsesTo (enclosed .leftBrace .rightBrace source) (.ok [Grammar.blockOf es]) ∧
    (∀ e, es = [e] → ParsesTo (enclosed .leftParen .rightParen source) (.ok [e])) ∧
    (∀ tracing frames scope w,
      run tracing (frames + extraFrames es) (.block [Grammar.blockOf es]) scope w
        = run tracing frames (.block es) scope w) ∧
    ∀ frames scope w,
      (run false frames (.block [Grammar.blockOf es]) scope w).1
        ≠ .error { cause := .stackExhausted } →
      run false frames (.block [Grammar.blockOf es]) scope w
        = run false frames (.block es) scope w := by
  obtain ⟨hlexes, hprogram⟩ := hsource.program
  refine ⟨?_, fun e hes => ?_, fun tracing frames scope w => run_blockOf tracing frames es scope w,
    fun frames scope w => run_blockOf_of_ne_exhausted⟩
  · have hbraced := lexes_enclosed .leftBrace .rightBrace hlexes
    exact .of_tokens hbraced.lex.1 hbraced.lex.2 (Grammar.unlimitedProgram_braced hprogram hlast)
  · have hbracketed := lexes_enclosed .leftParen .rightParen hlexes
    exact .of_tokens hbracketed.lex.1 hbracketed.lex.2
      (Grammar.unlimitedProgram_bracketed hprogram hlast hes)

/-- A program that writes and then fails, with a comment at its end that hides a bracket, and a
single expression with such a comment. -/
theorem parsesTo_enclosed_comment :
    ParsesTo "print(\"a\"); x # \x7d" (.ok [.call (.var "print") [.text "a"], .var "x"]) ∧
    enclosed .leftBrace .rightBrace "print(\"a\"); x # \x7d"
      = "\x7bprint(\"a\"); x # \x7d\n\x7d" ∧
    ParsesTo (enclosed .leftBrace .rightBrace "print(\"a\"); x # \x7d")
      (.ok [.block [.call (.var "print") [.text "a"], .var "x"]]) ∧
    run false 5 (.block [.block [.call (.var "print") [.text "a"], .var "x"]])
        Store.globalScope .initial
      = run false 4 (.block [.call (.var "print") [.text "a"], .var "x"])
        Store.globalScope .initial ∧
    (run false 4 (.block [.call (.var "print") [.text "a"], .var "x"])
      Store.globalScope .initial).1 = .error { cause := .undefinedVariable "x" } ∧
    ParsesTo "f() # )" (.ok [.call (.var "f") []]) ∧
    ParsesTo (enclosed .leftParen .rightParen "f() # )") (.ok [.call (.var "f") []]) := by
  have htokens : tokensOf "print(\"a\"); x # \x7d"
      = [.name "print", .mark .leftParen, .text "a", .mark .rightParen, .mark .semicolon,
        .name "x"] := by decide +kernel
  have htokens' : tokensOf "f() # )" = [.name "f", .mark .leftParen, .mark .rightParen] := by
    decide +kernel
  have hsource : ParsesTo "print(\"a\"); x # \x7d"
      (.ok [.call (.var "print") [.text "a"], .var "x"]) :=
    .of_tokens htokens (by decide +kernel) rfl
  have hsource' : ParsesTo "f() # )" (.ok [.call (.var "f") []]) :=
    .of_tokens htokens' (by decide +kernel) rfl
  -- what the texts end with are comments, which are no tokens
  have hlast : (tokensOf "print(\"a\"); x # \x7d").getLast? ≠ some (.mark .semicolon) := by
    rw [htokens]
    decide
  have hlast' : (tokensOf "f() # )").getLast? ≠ some (.mark .semicolon) := by
    rw [htokens']
    decide
  obtain ⟨hbraced, -, hrun, -⟩ := parsesTo_enclosed hsource hlast
  obtain ⟨-, hbracketed, -, -⟩ := parsesTo_enclosed hsource' hlast'
  exact ⟨hsource, by decide +kernel, hbraced, hrun false 4 _ _, rfl, hsource', hbracketed _ rfl⟩

end Lamlet
