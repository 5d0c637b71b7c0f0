import Lamlet.Proofs.Grammar.Extension
import Lamlet.Proofs.Shell.Brackets
import Lamlet.Proofs.Shell.Diagnostics

/-!
# Two texts in one

Two programs that wait in a queue are run one after the other against the same world.  The
text of both, with a semicolon on a line of its own between them, is one program that does
the same: nothing of the first text runs into the second, and the first failure ends both.

## Main definitions

* `joined` — the text of two programs.
* `Session.runTexts` — adds texts to the queue and runs it.
* `Session.SameEffect` — two outcomes that differ at most in the results before the last.

## Main results

* `parse_joined` — the program of a joined text, within any limit that both texts keep.
* `run_block_append` — the expressions of two programs in turn.
* `Session.sameEffect_joined` — **two texts in the queue do what the joined text does.**
-/

namespace Lamlet

open Store

/-! ### The program of the joined text -/

/-- The text of two programs, with a semicolon on a line of its own between them. -/
def joined (first second : String) : String := first ++ "\n" ++ ";" ++ "\n" ++ second

/-- The newlines keep the tokens of the two texts apart, also after a comment. -/
theorem lexes_joined {first second : String} {ts us : List Token}
    (hfirst : Lexes first.toList ts) (hsecond : Lexes second.toList us) :
    Lexes (joined first second).toList (ts ++ .mark .semicolon :: us) := by
  have hsemicolon : Lexes ";".toList [.mark .semicolon] := by
    rw [show [Token.mark .semicolon] = tokensOf ";" by decide +kernel]
    exact lexes_tokensOf (by decide +kernel)
  have hall := hfirst.append_newline (hsemicolon.append_newline hsecond)
  simpa [joined] using hall

theorem parse_eq_ok_iff {source : String} {frames : Nat} {es : List Term} :
    parse frames source = .ok es ↔
      (lex source).trouble = none ∧ Grammar.program frames (tokensOf source) = .ok es :=
  Lexed.parse_eq_ok_iff

section

variable {first second : String} {es fs : List Term}

/-- The expressions of the joined text are those of the first and those of the second. -/
theorem parse_joined (hes : es ≠ [])
    (hlast : (tokensOf first).getLast? ≠ some (.mark .semicolon)) {frames : Nat}
    (hfirst : parse frames first = .ok es) (hsecond : parse frames second = .ok fs) :
    parse frames (joined first second) = .ok (es ++ fs) := by
  obtain ⟨hfirstWhole, hfirstProgram⟩ := parse_eq_ok_iff.1 hfirst
  obtain ⟨hsecondWhole, hsecondProgram⟩ := parse_eq_ok_iff.1 hsecond
  have hlexes := lexes_joined (lexes_tokensOf hfirstWhole) (lexes_tokensOf hsecondWhole)
  have hne : tokensOf first ≠ [] := by
    intro hnil
    apply hes
    rw [hnil] at hfirstProgram
    exact (Except.ok.inj hfirstProgram).symm
  refine parse_eq_ok_iff.2 ⟨hlexes.lex.2, ?_⟩
  rw [hlexes.tokensOf_eq, Grammar.program_append hfirstProgram hne hlast, hsecondProgram]
  rfl

/-- The same without a limit. -/
theorem ParsesTo.joined (hfirst : ParsesTo first (.ok es)) (hes : es ≠ [])
    (hlast : (tokensOf first).getLast? ≠ some (.mark .semicolon))
    (hsecond : ParsesTo second (.ok fs)) :
    ParsesTo (joined first second) (.ok (es ++ fs)) := by
  obtain ⟨limit, hlimit⟩ := hfirst.eventually
  obtain ⟨limit', hlimit'⟩ := hsecond.eventually
  exact .of_parse (parse_joined hes hlast (hlimit (max limit limit') (Nat.le_max_left _ _))
    (hlimit' (max limit limit') (Nat.le_max_right _ _)))

end

/-! ### Evaluating two programs in turn -/

namespace Run

variable (item : Term → Run Value)

theorem last_append (v : Value) (es fs : List Term) :
    last item v (es ++ fs) = last item v es >>= fun v' => last item v' fs := by
  induction es generalizing v with
  | nil => rfl
  | cons e es ih =>
    simp only [List.cons_append, last, bind_assoc]
    exact bind_congr fun v' => ih v'

/-- The value to start with does not matter if there is any other. -/
theorem last_of_ne_nil {es : List Term} (h : es ≠ []) (v v' : Value) :
    last item v es = last item v' es := by
  cases es with
  | nil => exact absurd rfl h
  | cons e es => rfl

end Run

/-- The expressions of two programs are evaluated in turn, and the first failure ends both. -/
theorem run_block_append (tracing : Bool) (frames : Nat) (scope : ScopeId) (es : List Term)
    {fs : List Term} (hfs : fs ≠ []) (w : World) :
    run tracing frames (.block (es ++ fs)) scope w =
      match run tracing frames (.block es) scope w with
      | (.error fault, w') => (.error fault, w')
      | (.ok _, w') => run tracing frames (.block fs) scope w' := by
  cases frames with
  | zero => rfl
  | succ frames =>
    simp only [run, evaluate]
    rw [Run.last_append, EStateM.run_bind]
    cases (Run.last (fun t => evaluate tracing frames t scope) (.boolean false) es).run w with
    | error halt w' => cases halt <;> rfl
    | ok v w' =>
      simp only
      rw [Run.last_of_ne_nil _ hfs v (.boolean false)]

/-! ### In a session -/

namespace Session

/-- Adds texts to the queue, and runs the queue if all of them could be read. -/
def runTexts : List String → Action Unit
  | [] => runPending
  | source :: sources => do
    discard (add source)
    runTexts sources

/-- What interrupted an action, if anything did. -/
def interruption? {α : Type} : EStateM.Result Interruption Session α → Option Interruption
  | .ok _ _ => none
  | .error interruption _ => some interruption

/-- Two outcomes have the same effect: they leave the same world and are interrupted by the
same, and if they are not, the last result is the same. -/
structure SameEffect (r r' : EStateM.Result Interruption Session Unit) : Prop where
  world : (left r).world = (left r').world
  interruption : interruption? r = interruption? r'
  result : interruption? r = none → ∃ value,
    (left r).results.getLast? = some value ∧ (left r').results.getLast? = some value

/-- The queue is run from its front. -/
theorem run_runPending_cons {s : Session} {source : String} {program : List Term}
    {queue : List (String × List Term)} (h : s.pending = (source, program) :: queue) :
    runPending.run s =
      match run s.reporter.tracing s.frames (.block program) globalScope s.world with
      | (.error fault, w) =>
        .error (.fault fault) { s.workingOn source with world := w, pending := [] }
      | (.ok value, w) =>
        runPending.run
          { s.workingOn source with
            world := w, pending := queue, results := s.results ++ [value] } := by
  simp only [runPending, EStateM.run_bind, EStateM.run_modifyGet, h, runEach, run_runProgram]
  rcases run s.reporter.tracing s.frames (.block program) globalScope s.world with ⟨outcome, w⟩
  cases outcome <;> rfl

theorem run_runPending_nil {s : Session} (h : s.pending = []) :
    runPending.run s = .ok () (s.workingOn none) := by
  simp only [runPending, EStateM.run_bind, EStateM.run_modifyGet, h, runEach, EStateM.run_pure,
    run_registerSource]
  rw [← h]

section

variable {s : Session} (hpending : s.pending = [])

include hpending

/-- A text alone in the queue. -/
theorem run_runTexts_one {source : String} {es : List Term}
    (hread : Lamlet.parse s.frames source = .ok es) :
    (runTexts [source]).run s =
      match run s.reporter.tracing s.frames (.block es) globalScope s.world with
      | (.error fault, w) => .error (.fault fault) { s.workingOn source with world := w }
      | (.ok value, w) =>
        .ok () { s.workingOn none with world := w, results := s.results ++ [value] } := by
  have hends : s.Ends source ((runTexts [source]).run s) := ends_runText hpending source
  generalize (runTexts [source]).run s = r at hends
  cases hends with
  | unread hfailed => cases hread.symm.trans hfailed
  | failed hparse hrun =>
    obtain rfl := Except.ok.inj (hread.symm.trans hparse)
    rw [hrun]
  | valued hparse hrun =>
    obtain rfl := Except.ok.inj (hread.symm.trans hparse)
    rw [hrun]

/-- Two texts in the queue. -/
theorem run_runTexts_two {first second : String} {es fs : List Term}
    (hfirst : Lamlet.parse s.frames first = .ok es)
    (hsecond : Lamlet.parse s.frames second = .ok fs) :
    (runTexts [first, second]).run s =
      match run s.reporter.tracing s.frames (.block es) globalScope s.world with
      | (.error fault, w) => .error (.fault fault) { s.workingOn first with world := w }
      | (.ok value, w) =>
        match run s.reporter.tracing s.frames (.block fs) globalScope w with
        | (.error fault, w) =>
          .error (.fault fault)
            { s.workingOn second with world := w, results := s.results ++ [value] }
        | (.ok value', w) =>
          .ok ()
            { s.workingOn none with world := w, results := s.results ++ [value] ++ [value'] } := by
  have hadded : (runTexts [first, second]).run s = runPending.run
      { (s.workingOn first).workingOn second with pending := [(first, es), (second, fs)] } := by
    -- adding the first text leaves the limit for the second one
    have hsecond' : Lamlet.parse (s.workingOn first).frames second = .ok fs := hsecond
    simp only [runTexts, EStateM.run_bind, run_discard, run_add, hfirst, hsecond', hpending,
      List.nil_append]
    rfl
  rw [hadded, run_runPending_cons rfl]
  simp only [workingOn_tracing, workingOn_frames, workingOn_world]
  rcases run s.reporter.tracing s.frames (.block es) globalScope s.world with ⟨outcome, w⟩
  cases outcome with
  | error fault => simp [workingOn, Reporter.register_register, hpending]
  | ok value =>
    simp only
    rw [run_runPending_cons rfl]
    simp only [workingOn_tracing]
    rcases run s.reporter.tracing s.frames (.block fs) globalScope w with ⟨outcome, w'⟩
    cases outcome with
    | error fault => simp [workingOn, Reporter.register_register, hpending]
    | ok value' =>
      simp only
      rw [run_runPending_nil rfl]
      simp [workingOn, Reporter.register_register, hpending]

end

/-- **Two texts in the queue do what the joined text does**, in every session where nothing
waits before and whose depth limit is not met by the reading of either text.  The joined text
is the program with the expressions of both. -/
theorem sameEffect_joined {first second : String} {es fs : List Term}
    (hfirst : ParsesTo first (.ok es)) (hsecond : ParsesTo second (.ok fs)) (hes : es ≠ [])
    (hfs : fs ≠ []) (hlast : (tokensOf first).getLast? ≠ some (.mark .semicolon)) :
    ParsesTo (joined first second) (.ok (es ++ fs)) ∧
    ∀ s : Session, s.pending = [] → Lamlet.parse s.frames first ≠ .error .tooDeep →
      Lamlet.parse s.frames second ≠ .error .tooDeep →
        SameEffect ((runTexts [first, second]).run s)
          ((runTexts [joined first second]).run s) := by
  refine ⟨hfirst.joined hes hlast hsecond, fun s hpending hdeep hdeep' => ?_⟩
  have hread : Lamlet.parse s.frames first = .ok es := (hfirst.always s.frames).resolve_right hdeep
  have hread' : Lamlet.parse s.frames second = .ok fs :=
    (hsecond.always s.frames).resolve_right hdeep'
  rw [run_runTexts_two hpending hread hread',
    run_runTexts_one hpending (parse_joined hes hlast hread hread'), run_block_append _ _ _ _ hfs]
  rcases run s.reporter.tracing s.frames (.block es) globalScope s.world with ⟨outcome, w⟩
  cases outcome with
  -- the second text is not reached, in either run
  | error fault => exact ⟨rfl, rfl, fun h => by cases h⟩
  | ok value =>
    simp only
    rcases run s.reporter.tracing s.frames (.block fs) globalScope w with ⟨outcome, w'⟩
    cases outcome with
    | error fault => exact ⟨rfl, rfl, fun h => by cases h⟩
    | ok value' => exact ⟨rfl, rfl, fun _ => ⟨value', by simp [left], by simp [left]⟩⟩

theorem sameEffect_joined_comment :
    ParsesTo "x = true # yes" (.ok [.assign (.var "x") (.boolean true)]) ∧
    ParsesTo "print(x); y" (.ok [.call (.var "print") [.var "x"], .var "y"]) ∧
    joined "x = true # yes" "print(x); y" = "x = true # yes\n;\nprint(x); y" ∧
    ParsesTo (joined "x = true # yes" "print(x); y")
      (.ok [.assign (.var "x") (.boolean true), .call (.var "print") [.var "x"], .var "y"]) ∧
    SameEffect
      ((runTexts ["x = true # yes", "print(x); y"]).run (start {} "prog.lam" false 400))
      ((runTexts [joined "x = true # yes" "print(x); y"]).run (start {} "prog.lam" false 400)) := by
  have htokens : tokensOf "x = true # yes"
      = [.name "x", .operator "=", .keyword .trueWord] := by decide +kernel
  have htokens' : tokensOf "print(x); y"
      = [.name "print", .mark .leftParen, .name "x", .mark .rightParen, .mark .semicolon,
        .name "y"] := by decide +kernel
  have hread : Lamlet.parse 400 "x = true # yes" = .ok [.assign (.var "x") (.boolean true)] :=
    parse_of_tokens htokens (by decide +kernel) rfl (by decide)
  have hread' : Lamlet.parse 400 "print(x); y"
      = .ok [.call (.var "print") [.var "x"], .var "y"] :=
    parse_of_tokens htokens' (by decide +kernel) rfl (by decide)
  have hlast : (tokensOf "x = true # yes").getLast? ≠ some (.mark .semicolon) := by
    rw [htokens]
    decide
  obtain ⟨hjoined, heffect⟩ := sameEffect_joined (.of_parse hread) (.of_parse hread') (by simp)
    (by simp) hlast
  refine ⟨.of_parse hread, .of_parse hread', by decide +kernel, hjoined, ?_⟩
  refine heffect (start {} "prog.lam" false 400) rfl ?_ ?_
  · rw [show (start {} "prog.lam" false 400).frames = 400 from rfl, hread]
    simp
  · rw [show (start {} "prog.lam" false 400).frames = 400 from rfl, hread']
    simp

end Session

end Lamlet
