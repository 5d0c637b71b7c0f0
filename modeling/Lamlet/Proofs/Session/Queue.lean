import Lamlet.Proofs.Eval.Confinement
import Lamlet.Proofs.Shell.Diagnostics

/-!
# The queue of a session

Programs are added to a queue and run later.  When they are run makes no difference to what
they do: a session that adds and runs in any order has done what evaluating the programs one
after the other does.  Only the programs behind one that fails are lost, with the rest of the
queue they stand in.

## Main definitions

* `Session.Operation`, `Session.performAll` — adding and running, in any order.
* `Session.added`, `Session.batches` — the programs that are added, and those that wait at
  each run.
* `Session.evaluateAll` — programs evaluated one after the other.
* `Session.Unhindered` — the programs of a batch that stand behind none that fails.

## Main results

* `Session.evaluates_runEach` — what a run does with the programs that wait.
* `Session.flatten_batches` — every program that was added waits at one run at most.
* `Session.queue_effect` — **when programs are run makes no difference, except after one that
  fails.**
-/

namespace Lamlet

open Store

/-- Terms that are run in turn, in two parts. -/
theorem World.runInTurn_append (tracing : Bool) (frames : Nat) (scope : ScopeId)
    (ts us : List Term) (w : World) :
    runInTurn tracing frames scope (ts ++ us) w =
      ((runInTurn tracing frames scope ts w).1
        ++ (runInTurn tracing frames scope us (runInTurn tracing frames scope ts w).2).1,
      (runInTurn tracing frames scope us (runInTurn tracing frames scope ts w).2).2) := by
  induction ts generalizing w with
  | nil => rfl
  | cons t ts ih =>
    simp only [List.cons_append, runInTurn]
    rw [ih]

namespace Session

/-! ### Adding and running -/

/-- What is done with the queue of a session. -/
inductive Operation where
  /-- A text is read and added. -/
  | add (source : String)
  /-- The programs that wait are run. -/
  | run
  deriving DecidableEq, Repr, Inhabited

/-- The session after an operation, whether it was interrupted or not. -/
def perform (s : Session) : Operation → Session
  | .add source => left ((add source).run s)
  | .run => left (runPending.run s)

/-- The session after several operations. -/
def performAll (s : Session) (operations : List Operation) : Session := operations.foldl perform s

/-- The program that an operation adds to the queue, if it adds one. -/
def added? (frames : Nat) : Operation → Option (List Term)
  | .add source => (Lamlet.parse frames source).toOption
  | .run => none

/-- The programs that operations add to the queue. -/
def added (frames : Nat) (operations : List Operation) : List (List Term) :=
  operations.filterMap (added? frames)

/-- The programs that wait at each run, given those that wait already. -/
def batches (frames : Nat) : List (List Term) → List Operation → List (List (List Term))
  | _, [] => []
  | waiting, .run :: operations => waiting :: batches frames [] operations
  | waiting, .add source :: operations =>
    batches frames (waiting ++ (added? frames (.add source)).toList) operations

/-- The programs that wait in a session. -/
def waiting (s : Session) : List (List Term) := s.pending.map (·.2)

/-! ### Programs one after the other -/

/-- Evaluates programs one after the other, whatever each of them ends with. -/
def evaluateAll (s : Session) (programs : List (List Term)) (w : World) :
    List (Except Fault Value) × World :=
  World.runInTurn s.reporter.tracing s.frames globalScope (programs.map .block) w

/-- One session comes from the other by the evaluation of programs: each is evaluated once,
and a value is kept of each that has one. -/
structure Evaluates (s t : Session) (programs : List (List Term)) : Prop where
  frames : t.frames = s.frames
  tracing : t.reporter.tracing = s.reporter.tracing
  world : t.world = (s.evaluateAll programs s.world).2
  results : t.results = s.results ++ (s.evaluateAll programs s.world).1.filterMap Except.toOption

theorem evaluateAll_append (s : Session) (ps qs : List (List Term)) (w : World) :
    s.evaluateAll (ps ++ qs) w =
      ((s.evaluateAll ps w).1 ++ (s.evaluateAll qs (s.evaluateAll ps w).2).1,
        (s.evaluateAll qs (s.evaluateAll ps w).2).2) := by
  rw [evaluateAll, List.map_append, World.runInTurn_append]
  rfl

namespace Evaluates

variable {s t u : Session} {ps qs : List (List Term)}

theorem evaluateAll_eq (h : s.Evaluates t ps) : t.evaluateAll = s.evaluateAll := by
  funext programs w
  rw [evaluateAll, evaluateAll, h.frames, h.tracing]

theorem trans (h : s.Evaluates t ps) (h' : t.Evaluates u qs) : s.Evaluates u (ps ++ qs) := by
  refine ⟨h'.frames.trans h.frames, h'.tracing.trans h.tracing, ?_, ?_⟩
  · rw [h'.world, h.evaluateAll_eq, h.world, evaluateAll_append]
  · rw [h'.results, h.results, h.evaluateAll_eq, h.world, evaluateAll_append, List.filterMap_append,
      List.append_assoc]

end Evaluates

/-! ### A run -/

/-- The programs of a batch that are evaluated are those that stand behind none that fails.
The outcomes are those of the programs that are evaluated. -/
structure Unhindered (batch evaluated : List (List Term)) (outcomes : List (Except Fault Value)) :
    Prop where
  front : evaluated <+: batch
  evaluated_iff : ∀ j, j < batch.length →
    (j < evaluated.length ↔ ∀ i, i < j → ∀ fault, outcomes[i]? ≠ some (.error fault))

theorem unhindered_nil : Unhindered [] [] [] :=
  ⟨List.prefix_refl _, fun _ hj => absurd hj (Nat.not_lt_zero _)⟩

/-- Nothing behind a program that fails is evaluated. -/
theorem unhindered_failed (program : List Term) (behind : List (List Term)) (fault : Fault) :
    Unhindered (program :: behind) [program] [.error fault] := by
  refine ⟨⟨behind, rfl⟩, fun j _ => ?_⟩
  cases j with
  | zero => simp
  | succ j =>
    constructor
    · intro hj
      rw [List.length_singleton] at hj
      omega
    · intro h
      exact absurd rfl (h 0 (Nat.succ_pos j) fault)

/-- A program with a value hinders none behind it. -/
theorem Unhindered.cons {batch evaluated : List (List Term)}
    {outcomes : List (Except Fault Value)} (h : Unhindered batch evaluated outcomes)
    (program : List Term) (value : Value) :
    Unhindered (program :: batch) (program :: evaluated) (.ok value :: outcomes) := by
  refine ⟨(List.prefix_cons_inj program).2 h.front, fun j hj => ?_⟩
  cases j with
  | zero => simp
  | succ j =>
    -- the program in front has a value, so only those behind it can hinder others
    rw [List.length_cons, Nat.succ_lt_succ_iff, h.evaluated_iff j (Nat.lt_of_succ_lt_succ hj)]
    constructor
    · intro hbefore i hi fault
      cases i with
      | zero => simp
      | succ i => exact hbefore i (Nat.lt_of_succ_lt_succ hi) fault
    · intro hbefore i hi fault
      exact hbefore (i + 1) (Nat.succ_lt_succ hi) fault

/-- What a run does with the programs that wait: it evaluates those that stand behind none
that fails. -/
theorem evaluates_runEach (queue : List (String × List Term)) (s : Session) :
    ∃ evaluated, s.Evaluates (left ((runEach queue).run s)) evaluated ∧
      Unhindered (queue.map (·.2)) evaluated (s.evaluateAll evaluated s.world).1 ∧
      (left ((runEach queue).run s)).pending = s.pending := by
  induction queue generalizing s with
  | nil => exact ⟨[], ⟨rfl, rfl, rfl, by simp [evaluateAll, World.runInTurn, runEach, left]⟩,
      unhindered_nil, rfl⟩
  | cons entry queue ih =>
    obtain ⟨source, program⟩ := entry
    rw [runEach, EStateM.run_bind, run_runProgram]
    rcases hrun : run s.reporter.tracing s.frames (.block program) globalScope s.world
      with ⟨outcome, w⟩
    have hfirst : s.evaluateAll [program] s.world = ([outcome], w) := by
      simp only [evaluateAll, List.map_cons, List.map_nil, World.runInTurn, hrun]
    cases outcome with
    | error fault =>
      -- the first failure ends the run, and all behind it is dropped
      refine ⟨[program], ⟨rfl, rfl, ?_, ?_⟩, ?_, rfl⟩
      · rw [hfirst]
        rfl
      · rw [hfirst]
        simp [left, workingOn, Except.toOption]
      · rw [hfirst]
        exact unhindered_failed program _ fault
    | ok value =>
      simp only
      obtain ⟨evaluated, hrest, hunhindered, hpending⟩ :=
        ih { s.workingOn source with world := w, results := s.results ++ [value] }
      have hstep : s.Evaluates
          { s.workingOn source with world := w, results := s.results ++ [value] } [program] := by
        refine ⟨rfl, rfl, ?_, ?_⟩
        · rw [hfirst]
        · rw [hfirst]
          rfl
      refine ⟨program :: evaluated, hstep.trans hrest, ?_, hpending⟩
      rw [show program :: evaluated = [program] ++ evaluated from rfl, evaluateAll_append, hfirst]
      rw [hstep.evaluateAll_eq] at hunhindered
      exact hunhindered.cons program value

/-- A run empties the queue, and evaluates the programs that stand behind none that fails. -/
theorem evaluates_run (s : Session) :
    ∃ evaluated, s.Evaluates (s.perform .run) evaluated ∧
      Unhindered s.waiting evaluated (s.evaluateAll evaluated s.world).1 ∧
      (s.perform .run).pending = [] := by
  obtain ⟨evaluated, heffect, hunhindered, hpending⟩ :=
    evaluates_runEach s.pending { s with pending := [] }
  -- a run that is not interrupted ends with a note to the reporter
  have hleft : s.perform .run
        = (left ((runEach s.pending).run { s with pending := [] })).workingOn none ∨
      s.perform .run = left ((runEach s.pending).run { s with pending := [] }) := by
    simp only [perform, runPending, EStateM.run_bind, EStateM.run_modifyGet]
    cases (runEach s.pending).run { s with pending := [] } with
    | ok _ t => exact .inl rfl
    | error interruption t => exact .inr rfl
  have heffect' : s.Evaluates (left ((runEach s.pending).run { s with pending := [] })) evaluated :=
    ⟨heffect.frames, heffect.tracing, heffect.world, heffect.results⟩
  refine ⟨evaluated, ?_, hunhindered, ?_⟩
  · rcases hleft with hleft | hleft <;> rw [hleft]
    · exact ⟨heffect'.frames, heffect'.tracing, heffect'.world, heffect'.results⟩
    · exact heffect'
  · rcases hleft with hleft | hleft <;> rw [hleft] <;> exact hpending

/-! ### An addition -/

/-- Adding evaluates nothing; the program that was read, if it was, waits. -/
theorem perform_add (s : Session) (source : String) :
    s.Evaluates (s.perform (.add source)) [] ∧
      (s.perform (.add source)).waiting = s.waiting ++ (added? s.frames (.add source)).toList := by
  have hnothing : (s.evaluateAll [] s.world).1 = [] := rfl
  rw [perform, run_add, added?]
  cases Lamlet.parse s.frames source with
  | error failure =>
    refine ⟨⟨rfl, rfl, rfl, ?_⟩, ?_⟩
    · rw [hnothing]
      exact (List.append_nil _).symm
    · exact (List.append_nil _).symm
  | ok program =>
    refine ⟨⟨rfl, rfl, rfl, ?_⟩, ?_⟩
    · rw [hnothing]
      exact (List.append_nil _).symm
    · simp [waiting, left, Except.toOption]

/-! ### Any number of operations -/

/-- The programs that are evaluated at each run, for the programs that wait at each of them:
those that stand behind none that fails at the same run. -/
inductive Selects (s : Session) :
    World → List (List (List Term)) → List (List (List Term)) → Prop where
  | nil (w : World) : Selects s w [] []
  | cons {w : World} {batch evaluated : List (List Term)} {later chosen : List (List (List Term))} :
      Unhindered batch evaluated (s.evaluateAll evaluated w).1 →
      Selects s (s.evaluateAll evaluated w).2 later chosen →
      Selects s w (batch :: later) (evaluated :: chosen)

/-- What is selected depends on a session only by how it evaluates programs. -/
theorem Selects.of_evaluateAll_eq {s t : Session} {w : World}
    {batches chosen : List (List (List Term))} (h : t.Selects w batches chosen)
    (hsame : t.evaluateAll = s.evaluateAll) : s.Selects w batches chosen := by
  induction h with
  | nil w => exact .nil w
  | cons hunhindered _ ih =>
    rw [hsame] at hunhindered ih
    exact .cons hunhindered ih

/-- Every program that was added waits at one run, in the order of the additions, or is still
waiting. -/
theorem flatten_batches (s : Session) (operations : List Operation) :
    (batches s.frames s.waiting operations).flatten ++ (s.performAll operations).waiting =
      s.waiting ++ added s.frames operations := by
  induction operations generalizing s with
  | nil => simp [batches, added, performAll]
  | cons operation operations ih =>
    have hlater := ih (s.perform operation)
    cases operation with
    | add source =>
      obtain ⟨heffect, hwaiting⟩ := perform_add s source
      rw [heffect.frames, hwaiting, List.append_assoc] at hlater
      rw [batches, show s.performAll (.add source :: operations)
        = (s.perform (.add source)).performAll operations from rfl, hlater]
      cases hadded : added? s.frames (.add source) <;> simp [added, hadded]
    | run =>
      obtain ⟨evaluated, heffect, -, hpending⟩ := evaluates_run s
      have hwaiting : (s.perform .run).waiting = [] := by rw [waiting, hpending, List.map_nil]
      rw [heffect.frames, hwaiting, List.nil_append] at hlater
      rw [batches, List.flatten_cons, List.append_assoc, show s.performAll (.run :: operations)
        = (s.perform .run).performAll operations from rfl, hlater]
      rfl

/-- A session that adds and runs has evaluated the programs that its runs select. -/
theorem evaluates_performAll (s : Session) (operations : List Operation) :
    ∃ chosen, s.Selects s.world (batches s.frames s.waiting operations) chosen ∧
      s.Evaluates (s.performAll operations) chosen.flatten := by
  induction operations generalizing s with
  | nil =>
    refine ⟨[], .nil _, rfl, rfl, rfl, ?_⟩
    exact (List.append_nil _).symm
  | cons operation operations ih =>
    obtain ⟨chosen, hselects, hlater⟩ := ih (s.perform operation)
    cases operation with
    | add source =>
      obtain ⟨heffect, hwaiting⟩ := perform_add s source
      rw [heffect.frames, hwaiting, heffect.world] at hselects
      exact ⟨chosen, hselects.of_evaluateAll_eq heffect.evaluateAll_eq, heffect.trans hlater⟩
    | run =>
      obtain ⟨evaluated, heffect, hunhindered, hpending⟩ := evaluates_run s
      have hwaiting : (s.perform .run).waiting = [] := by rw [waiting, hpending, List.map_nil]
      rw [heffect.frames, hwaiting, heffect.world] at hselects
      exact ⟨evaluated :: chosen,
        .cons hunhindered (hselects.of_evaluateAll_eq heffect.evaluateAll_eq),
        heffect.trans hlater⟩

/-- **When programs are run makes no difference, except after one that fails.**  After any
additions and runs: a run leaves nothing in the queue; an addition that fails changes neither
the queue nor the results nor the world; and the session has evaluated, each once and in the
order of the additions, the programs that waited at some run behind none that failed at the
same run, and kept a result of each that had one. -/
theorem queue_effect (s : Session) (operations : List Operation) :
    (s.performAll (operations ++ [.run])).pending = [] ∧
    (∀ source interruption t,
      (add source).run (s.performAll operations) = .error interruption t →
        t.pending = (s.performAll operations).pending ∧
        t.results = (s.performAll operations).results ∧
        t.world = (s.performAll operations).world) ∧
    (batches s.frames s.waiting operations).flatten ++ (s.performAll operations).waiting =
      s.waiting ++ added s.frames operations ∧
    ∃ chosen, s.Selects s.world (batches s.frames s.waiting operations) chosen ∧
      (s.performAll operations).world = (s.evaluateAll chosen.flatten s.world).2 ∧
      (s.performAll operations).results =
        s.results ++ (s.evaluateAll chosen.flatten s.world).1.filterMap Except.toOption := by
  refine ⟨?_, ?_, flatten_batches s operations, ?_⟩
  · obtain ⟨_, _, _, hpending⟩ := evaluates_run (s.performAll operations)
    rw [performAll, List.foldl_append]
    exact hpending
  · intro source interruption t hfailed
    rw [run_add] at hfailed
    split at hfailed
    · obtain ⟨_, rfl⟩ := EStateM.Result.error.inj hfailed
      exact ⟨rfl, rfl, rfl⟩
    · cases hfailed
  · obtain ⟨chosen, hselects, heffect⟩ := evaluates_performAll s operations
    exact ⟨chosen, hselects, heffect.world, heffect.results⟩

/-- A program that fails, one behind it, and one that comes later. -/
def hinderedSample : List Operation := [.add "y", .add "true", .run, .add "false", .run]

theorem queue_effect_hinderedSample :
    batches 400 [] hinderedSample = [[[.var "y"], [.boolean true]], [[.boolean false]]] ∧
    (add strayBracket).run ((start {} "prog.lam" false 400).performAll hinderedSample)
      = .error (.fault strayFault)
        (((start {} "prog.lam" false 400).performAll hinderedSample).workingOn strayBracket) ∧
    (((start {} "prog.lam" false 400).performAll hinderedSample).workingOn strayBracket).pending
      = ((start {} "prog.lam" false 400).performAll hinderedSample).pending ∧
    ∃ chosen, (start {} "prog.lam" false 400).Selects .initial
      [[[.var "y"], [.boolean true]], [[.boolean false]]] chosen := by
  have hy : Lamlet.parse 400 "y" = .ok [.var "y"] :=
    parse_of_tokens (show tokensOf "y" = [.name "y"] by decide +kernel)
      (by decide +kernel) rfl (by decide)
  have htrue : Lamlet.parse 400 "true" = .ok [.boolean true] :=
    parse_of_tokens (show tokensOf "true" = [.keyword .trueWord] by decide +kernel)
      (by decide +kernel) rfl (by decide)
  have hfalse : Lamlet.parse 400 "false" = .ok [.boolean false] :=
    parse_of_tokens (show tokensOf "false" = [.keyword .falseWord] by decide +kernel)
      (by decide +kernel) rfl (by decide)
  have hbatches : batches 400 [] hinderedSample
      = [[[.var "y"], [.boolean true]], [[.boolean false]]] := by
    simp only [hinderedSample, batches, added?, hy, htrue, hfalse]
    rfl
  have hframes : ((start {} "prog.lam" false 400).performAll hinderedSample).frames = 400 := by
    obtain ⟨_, -, heffect⟩ := evaluates_performAll (start {} "prog.lam" false 400) hinderedSample
    exact heffect.frames
  have hfailed : (add strayBracket).run
        ((start {} "prog.lam" false 400).performAll hinderedSample)
      = .error (.fault strayFault)
        (((start {} "prog.lam" false 400).performAll hinderedSample).workingOn strayBracket) := by
    rw [run_add, hframes, parse_strayBracket]
    rfl
  obtain ⟨-, hkept, -, chosen, hselects, -⟩ :=
    queue_effect (start {} "prog.lam" false 400) hinderedSample
  exact ⟨hbatches, hfailed, (hkept _ _ _ hfailed).1, chosen, hbatches ▸ hselects⟩

end Session

end Lamlet
