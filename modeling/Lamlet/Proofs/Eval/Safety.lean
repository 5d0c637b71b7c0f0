import Lamlet.Proofs.Eval.Lockstep
import Lamlet.Proofs.Store.Runs

/-!
# Programs that are read do not fail inside the interpreter

The grammar gives every operator a meaning and never leaves an expression out where one is
evaluated, and functions keep to that when they are called later.  So a program that was
read from a text ends with a value or with a fault of its own, and host functions get
exactly the arguments that they declare.

## Main definitions

* `Fault.OfProgram` — the faults that a running program may have.
* `World.RunsTexts` — texts are read and run one after the other.
* `safeLockstep` — the runs of programs that were read.

## Main results

* `Operator.fault_of_apply` — operators with a meaning fail on their operands only.
* `World.run_text_safe` — **a text that is read and run ends with a value or with a fault
  of the program.**
-/

namespace Lamlet

open Store

/-! ### Faults of programs -/

/-- The kinds of fault that a running program may have. -/
def FaultKind.ofProgram : List FaultKind :=
  [.undefinedVariable, .typeMismatch, .call, .stackExhausted]

/-- A fault of a running program, and not one of the interpreter. -/
structure Fault.OfProgram (f : Fault) : Prop where
  kind : f.cause.kind ∈ FaultKind.ofProgram
  notInternal : f.cause.internal = false

theorem Operator.fault_of_operand {op : Operator} {v : Value} {fault : Fault}
    (h : op.operand v = .error fault) : fault = { cause := .notANumber v.shown op.symbol } := by
  cases v with
  | number x => cases h
  | _ => exact (Except.error.inj h).symm

/-- An operator with a meaning fails only because an operand is no number. -/
theorem Operator.fault_of_apply {op : Operator} (hop : op ∈ Operator.known) {l r : Value}
    {fault : Fault} (h : op.apply l r = .error fault) :
    ∃ shown, fault = { cause := .notANumber shown op.symbol } := by
  unfold Operator.apply at h
  split at h
  · cases hx : op.operand l with
    | error f =>
      rw [hx] at h
      obtain rfl := Except.error.inj h
      exact ⟨_, Operator.fault_of_operand hx⟩
    | ok x =>
      cases hy : op.operand r with
      | error f =>
        rw [hx, hy] at h
        obtain rfl := Except.error.inj h
        exact ⟨_, Operator.fault_of_operand hy⟩
      | ok y =>
        rw [hx, hy] at h
        cases h
  · next hnumeric =>
    -- what is not for numbers is one of the four operators that never fail
    split at h
    · cases h
    · cases h
    · cases h
    · cases h
    · simp only [Operator.known, List.mem_cons, List.not_mem_nil, or_false] at hop
      rcases hop with rfl | rfl | rfl | rfl | rfl | rfl | rfl | rfl | rfl | rfl | rfl | rfl | rfl
      all_goals simp_all [Operator.numeric?]

/-! ### The runs of programs that were read -/

/-- A node that a program may have: there is an expression, and operators have a meaning. -/
def Term.Proper : Term → Prop
  | binary op _ _ => op ∈ Operator.known
  | missing => False
  | _ => True

theorem Term.BuiltFrom.proper {ts : List Token} {t : Term} (h : t.BuiltFrom ts) : t.Proper := by
  cases t with
  | binary op left right => exact h
  | missing => exact h
  | _ => trivial

/-- An event of an untraced run: host functions get the arguments that they declare. -/
def Event.Proper : Event → Prop
  | hostCall f arguments => arguments.length = f.parameters.length
  | step _ _ => False
  | _ => True

/-- A halt of a program: no frame is left, or the program has a fault. -/
def Halt.Proper : Halt → Prop
  | fault f => f.OfProgram
  | exhausted => True

theorem Halt.Proper.toFault {e : Halt} (h : e.Proper) : e.toFault.OfProgram := by
  cases e with
  | fault f => exact h
  | exhausted => exact ⟨by decide, rfl⟩

/-- Untraced runs of programs that were read.  What counts is what one run may do, so no
events of two runs are compared. -/
def safeLockstep : Lockstep where
  tracing := false
  node := Term.Proper
  compared _ := false
  stop _ := False
  pass := Halt.Proper
  event := Event.Proper
  undefined _ := ⟨by simp [Cause.kind, FaultKind.ofProgram], rfl⟩
  notAFunction _ := ⟨by simp [Cause.kind, FaultKind.ofProgram], rfl⟩
  notAssignable _ := ⟨by simp [Cause.kind, FaultKind.ofProgram], rfl⟩
  exhausted := trivial
  missing h := h.elim
  operator hop happly := by
    obtain ⟨shown, rfl⟩ := Operator.fault_of_apply hop happly
    exact ⟨by simp [Cause.kind, FaultKind.ofProgram], rfl⟩
  output _ := trivial
  hostCall h := h
  step _ _ _ := rfl
  callee h := absurd h Bool.false_ne_true

/-- A program that was read may be run. -/
theorem ParsesTo.safeLockstep_fit {source : String} {program : List Term}
    (h : ParsesTo source (.ok program)) : safeLockstep.Fit (.block program) := by
  refine .intro trivial fun e he => ?_
  exact (h.builtFrom.2 e he).mono fun t ht => ht.proper

namespace World

theorem Fresh.stocked {w : World} (h : w.Fresh) (C : Lockstep) : C.Stocked w.store :=
  fun i name f hf => absurd hf (h.not_mem_bindings i name f)

/-- What a run keeps, and what it ends with. -/
theorem run_proper {program : Term} (hprogram : safeLockstep.Fit program) (frames : Nat)
    (scope : ScopeId) {w : World} (hw : safeLockstep.Good w) :
    safeLockstep.Good (run false frames program scope w).2 ∧
    ∀ fault, (run false frames program scope w).1 = .error fault → fault.OfProgram := by
  -- a run is in lockstep with itself
  have hleaves := (Lockstep.inStep_evaluate (safeLockstep.within_refl frames) program scope
    hprogram).keeps w hw
  rw [run_eq]
  generalize evaluate false frames program scope w = r at hleaves
  refine ⟨hleaves.good, fun fault h => ?_⟩
  cases r with
  | ok v w' => cases h
  | error e w' =>
    obtain rfl := Except.error.inj h
    exact hleaves.1.toFault

/-- Texts that can be read are run one after the other, untraced and each within a limit of
its own, whatever they end with. -/
inductive RunsTexts (w : World) : World → Prop where
  | none : RunsTexts w w
  | run {w' : World} {source : String} {program : List Term} (frames : Nat) :
      RunsTexts w w' → ParsesTo source (.ok program) →
      RunsTexts w (run false frames (.block program) globalScope w').2

theorem RunsTexts.good {w w' : World} (hw : safeLockstep.Good w) (h : RunsTexts w w') :
    safeLockstep.Good w' := by
  induction h with
  | none => exact hw
  | run frames _ hparse ih => exact (run_proper hparse.safeLockstep_fit frames globalScope ih).1

theorem good_initial : safeLockstep.Good World.initial :=
  ⟨fresh_initial.stocked safeLockstep, fun _ he => nomatch he⟩

/-- **A text that is read and run ends with a value or with a fault of the program**, and
never with one of the interpreter; so it is after any texts run before it.  Host functions
have got exactly as many arguments as they declare. -/
theorem run_text_safe {w : World} (hw : World.initial.RunsTexts w) {source : String}
    {program : List Term} (hparse : ParsesTo source (.ok program)) (frames : Nat) :
    ((∃ v, (run false frames (.block program) globalScope w).1 = .ok v) ∨
      ∃ fault, (run false frames (.block program) globalScope w).1 = .error fault
        ∧ fault.OfProgram) ∧
    ∀ f arguments,
      Event.hostCall f arguments ∈ (run false frames (.block program) globalScope w).2.log.toList →
      arguments.length = f.parameters.length := by
  obtain ⟨hgood, hfault⟩ :=
    run_proper hparse.safeLockstep_fit frames globalScope (hw.good good_initial)
  refine ⟨?_, fun f arguments hcall => hgood.events _ hcall⟩
  cases hvalue : (run false frames (.block program) globalScope w).1 with
  | ok v => exact .inl ⟨v, rfl⟩
  | error fault => exact .inr ⟨fault, rfl, hfault fault hvalue⟩

/-- The world after a text that makes a function with two parameters, which calls a host
function with both. -/
def afterDefinition : World :=
  (run false 20 (.block [.assign (.var "f")
    (.lambda ["x", "y"] (.call (.var "println") [.var "x", .var "y"]))]) globalScope .initial).2

theorem runsTexts_afterDefinition : World.initial.RunsTexts afterDefinition := by
  have htokens : (lex "f = lambda (x, y) println(x, y)").tokens.map (·.token)
      = [.name "f", .operator "=", .keyword .lambdaWord, .mark .leftParen, .name "x", .mark .comma,
        .name "y", .mark .rightParen, .name "println", .mark .leftParen, .name "x", .mark .comma,
        .name "y", .mark .rightParen] := by
    decide +kernel
  exact .run 20 .none (.of_tokens htokens (by decide +kernel) rfl)

/-- The function is called with one argument too few; the host function drops the one that
is too many, and what it returns is no number. -/
theorem run_text_safe_afterDefinition :
    World.initial.RunsTexts afterDefinition ∧
    ParsesTo "f(\"a\") + 1" (.ok [.binary .add (.call (.var "f") [.text "a"]) (.number .one)]) ∧
    (run false 20 (.block [.binary .add (.call (.var "f") [.text "a"]) (.number .one)])
      globalScope afterDefinition).1 = .error { cause := .notANumber "false" "+" } ∧
    (run false 20 (.block [.binary .add (.call (.var "f") [.text "a"]) (.number .one)])
      globalScope afterDefinition).2.log.size = 2 ∧
    ((∃ v, (run false 20 (.block [.binary .add (.call (.var "f") [.text "a"]) (.number .one)])
        globalScope afterDefinition).1 = .ok v) ∨
      ∃ fault, (run false 20 (.block [.binary .add (.call (.var "f") [.text "a"]) (.number .one)])
        globalScope afterDefinition).1 = .error fault ∧ fault.OfProgram) ∧
    ∀ f arguments,
      Event.hostCall f arguments ∈
        (run false 20 (.block [.binary .add (.call (.var "f") [.text "a"]) (.number .one)])
          globalScope afterDefinition).2.log.toList →
      arguments.length = f.parameters.length := by
  have htokens : (lex "f(\"a\") + 1").tokens.map (·.token)
      = [.name "f", .mark .leftParen, .text "a", .mark .rightParen, .operator "+",
        .number .one] := by
    decide +kernel
  have hparse : ParsesTo "f(\"a\") + 1"
      (.ok [.binary .add (.call (.var "f") [.text "a"]) (.number .one)]) :=
    .of_tokens htokens (by decide +kernel) rfl
  exact ⟨runsTexts_afterDefinition, hparse, by rfl, by decide +kernel,
    run_text_safe runsTexts_afterDefinition hparse 20⟩

end World

end Lamlet
