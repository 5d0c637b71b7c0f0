import Lamlet.Proofs.Eval.Discipline
import Lamlet.Proofs.Grammar.Shape
import Lamlet.Proofs.Store.Sound

/-!
# Two runs in lockstep

A run, traced or not, goes beside an untraced run of the same term that has at least as
many frames.  The two do the same at each step and leave the same scopes, until the first
one has to stop where the second may go on; what the first one did is then a part of what
the second one does.  A *lockstep* says which terms are run, which events of the two logs
are compared, where the first run may stop early and which halts the second one may end
with.  It answers for the single steps, and the induction over evaluation is done here
once for all of them.

## Main definitions

* `Lockstep` — what is compared, and the obligations.
* `Lockstep.Keeps` — what the second run keeps, for each of its outcomes.
* `Lockstep.Agree`, `Lockstep.InStep` — two outcomes agree, and two computations go in
  lockstep.
* `Lockstep.Within` — the budgets of the two runs.

## Main results

* `Lockstep.InStep.bind` — computations in lockstep can be composed.
* `Lockstep.inStep_evaluate` — **evaluation goes in lockstep.**
-/

namespace Lamlet

/-! ### Outcomes and steps -/

/-- The fault that a halt is reported as. -/
def Halt.toFault : Halt → Fault
  | fault f => f
  | exhausted => { cause := .stackExhausted }

namespace Run

variable {α : Type}

/-- The world that an outcome leaves. -/
def worldOf : EStateM.Result Halt World α → World
  | .ok _ w => w
  | .error _ w => w

/-- What an outcome reports: its value, or the fault that its halt is. -/
def reportOf : EStateM.Result Halt World α → Except Fault α
  | .ok a _ => .ok a
  | .error e _ => .error e.toFault

/-- A computation on the scopes only. -/
def onStore (op : Store → Except Halt (α × Store)) : Run α := fun w =>
  match op w.store with
  | .ok (a, store) => .ok a { w with store }
  | .error e => .error e w

theorem readVariable_eq_onStore (scope : ScopeId) (name : String) :
    readVariable scope name = onStore fun s =>
      match s.get? scope name with
      | some v => .ok (v, s)
      | none => .error (.fault { cause := .undefinedVariable name }) := by
  funext w
  rw [readVariable_apply, onStore]
  cases w.store.get? scope name with
  | some v => rfl
  | none => rfl

theorem assignVariable_eq_onStore (scope : ScopeId) (name : String) (v : Value) :
    assignVariable scope name v = onStore fun s =>
      match s.target? scope name with
      | some i => .ok ((), s.define i name v)
      | none => .error (.fault { cause := .undefinedVariable name }) := by
  funext w
  rw [assignVariable_apply, onStore]
  cases w.store.target? scope name with
  | some i => rfl
  | none => rfl

theorem makeClosure_eq_onStore (parameters : List String) (body : Term) (scope : ScopeId) :
    makeClosure parameters body scope = onStore fun s =>
      .ok (.closure ⟨s.fresh, parameters, body, scope⟩, s.newIdentity.2) :=
  rfl

theorem openScope_eq_onStore (f : Closure) (vs : List Value) :
    openScope f vs = onStore fun s =>
      .ok (s.extend f.scope (bindArguments f.parameters vs) (some f)) :=
  rfl

/-- The arguments of a call and the call itself, once the callee is there. -/
def callWithin (tracing : Bool) (frames : Nat) (callee : Term) (arguments : List Term)
    (scope : ScopeId) (f : Value) : Run Value :=
  match frames with
  | 0 => throw .exhausted
  | inner + 1 => do
    let vs ← each (fun t => evaluate tracing inner t scope) arguments
    traceCall tracing callee vs
    invoke (evaluate tracing inner) f vs

theorem evaluate_call (tracing : Bool) (frames : Nat) (callee : Term) (arguments : List Term)
    (scope : ScopeId) :
    evaluate tracing (frames + 1) (.call callee arguments) scope
      = evaluate tracing frames callee scope
        >>= callWithin tracing frames callee arguments scope := by
  cases frames with
  | zero => rw [evaluate]; rfl
  | succ inner => rw [evaluate]; rfl

end Run

/-- A run reports the outcome of an evaluation, and leaves its world. -/
theorem run_eq (tracing : Bool) (frames : Nat) (t : Term) (scope : ScopeId) (w : World) :
    run tracing frames t scope w
      = (Run.reportOf (evaluate tracing frames t scope w),
        Run.worldOf (evaluate tracing frames t scope w)) := by
  rw [run, EStateM.run]
  cases evaluate tracing frames t scope w with
  | ok v w' => rfl
  | error e w' =>
    cases e with
    | fault fault => rfl
    | exhausted => rfl

/-! ### What is compared -/

/-- Two runs in lockstep: what is compared, and what the single steps answer for. -/
structure Lockstep where
  /-- Whether the first run is traced; the second one is not. -/
  tracing : Bool
  /-- What holds of each node of the terms that are run. -/
  node : Term → Prop
  /-- The events in which the logs must agree. -/
  compared : Event → Bool
  /-- The halts by which the first run may stop before the second one. -/
  stop : Halt → Prop
  /-- The halts that the second run may end with. -/
  pass : Halt → Prop
  /-- The events that the second run may bring about. -/
  event : Event → Prop
  undefined (name : String) : pass (.fault { cause := .undefinedVariable name })
  notAFunction (shown : String) : pass (.fault { cause := .notAFunction shown })
  notAssignable (sort : String) : pass (.fault { cause := .notAssignable sort })
  exhausted : pass .exhausted
  missing : node .missing → pass (.fault { cause := .noExpression })
  operator {op : Operator} {left right : Term} {l r : Value} {fault : Fault} :
    node (.binary op left right) → op.apply l r = .error fault → pass (.fault fault)
  output (text : String) : event (.output text)
  hostCall {f : HostFunction} {vs : List Value} :
    vs.length = f.parameters.length → event (.hostCall f vs)
  step (sort text : String) : tracing = true → compared (.step sort text) = false
  callee {callee : Term} {arguments : List Term} {fault : Fault} :
    tracing = true → node (.call callee arguments) → callee.render = .error fault →
    stop (.fault fault)

namespace Lockstep

variable (C : Lockstep) {α β : Type}

/-- The terms that are run. -/
def Fit (t : Term) : Prop := t.Everywhere C.node

/-- A value that may appear: the body of a function is a term that may be run. -/
def Sound (v : Value) : Prop := ∀ f, v = .closure f → C.Fit f.body

/-- Functions that are bound to a name have a body that may be run. -/
def Stocked (s : Store) : Prop :=
  ∀ i name f, (name, Value.closure f) ∈ (s.scope i).bindings → C.Fit f.body

/-- A world that the second run may reach. -/
structure Good (w : World) : Prop where
  stocked : C.Stocked w.store
  events : ∀ e ∈ w.log.toList, C.event e

/-- The events of a world that are compared. -/
def view (w : World) : List Event := w.log.toList.filter C.compared

/-- Two worlds with the same scopes and, as far as they are compared, the same events. -/
structure Alike (w w' : World) : Prop where
  store : w.store = w'.store
  view : C.view w = C.view w'

theorem alike_refl (w : World) : C.Alike w w := ⟨rfl, rfl⟩

/-- What the second run keeps, whatever it ends with. -/
def Leaves (Q : α → Prop) (w : World) : EStateM.Result Halt World α → Prop
  | .ok a w' => Q a ∧ C.Good w' ∧ w.log.toList <+: w'.log.toList
  | .error e w' => C.pass e ∧ C.Good w' ∧ w.log.toList <+: w'.log.toList

/-- A computation of the second run: a value comes with `Q`, and the log only grows. -/
def Keeps (Q : α → Prop) (y : Run α) : Prop := ∀ w, C.Good w → C.Leaves Q w (y w)

/-- The outcomes of the two runs agree, or the first one stopped early. -/
inductive Agree : EStateM.Result Halt World α → EStateM.Result Halt World α → Prop where
  | value {a : α} {w w' : World} : C.Alike w w' → Agree (.ok a w) (.ok a w')
  | halt {e : Halt} {w w' : World} : C.Alike w w' → Agree (.error e w) (.error e w')
  | stopped {e : Halt} {w : World} {r : EStateM.Result Halt World α} :
      C.stop e → C.view w <+: C.view (Run.worldOf r) → Agree (.error e w) r

/-- Two computations in lockstep. -/
structure InStep (Q : α → Prop) (x y : Run α) : Prop where
  keeps : C.Keeps Q y
  agree : ∀ w w', C.Alike w w' → C.Good w' → C.Agree (x w) (y w')

variable {C} {Q : α → Prop} {R : β → Prop}

/-- Only functions have a body. -/
theorem sound_of_plain {v : Value} (hv : v.identity? = none) : C.Sound v := by
  intro f hf
  rw [hf] at hv
  cases hv

theorem Leaves.good {w : World} {r : EStateM.Result Halt World α} (h : C.Leaves Q w r) :
    C.Good (Run.worldOf r) := by
  cases r with
  | ok a w' => exact h.2.1
  | error e w' => exact h.2.1

theorem Leaves.grows {w : World} {r : EStateM.Result Halt World α} (h : C.Leaves Q w r) :
    w.log.toList <+: (Run.worldOf r).log.toList := by
  cases r with
  | ok a w' => exact h.2.2
  | error e w' => exact h.2.2

theorem Leaves.view {w : World} {r : EStateM.Result Halt World α} (h : C.Leaves Q w r) :
    C.view w <+: C.view (Run.worldOf r) :=
  h.grows.filter _

/-- An outcome counts from an earlier world as well. -/
theorem Leaves.earlier {w w' : World} {r : EStateM.Result Halt World α}
    (hlog : w.log.toList <+: w'.log.toList) (h : C.Leaves Q w' r) : C.Leaves Q w r := by
  cases r with
  | ok a w'' => exact ⟨h.1, h.2.1, hlog.trans h.2.2⟩
  | error e w'' => exact ⟨h.1, h.2.1, hlog.trans h.2.2⟩

/-! ### Composition -/

theorem Keeps.bind {y : Run α} {g : α → Run β} (hy : C.Keeps Q y)
    (hg : ∀ a, Q a → C.Keeps R (g a)) : C.Keeps R (y >>= g) := by
  intro w hw
  have hfirst := hy w hw
  show C.Leaves R w (EStateM.bind y g w)
  unfold EStateM.bind
  cases hrun : y w with
  | error e w' =>
    rw [hrun] at hfirst
    exact hfirst
  | ok a w' =>
    rw [hrun] at hfirst
    obtain ⟨ha, hw', hlog⟩ := hfirst
    exact (hg a ha w' hw').earlier hlog

/-- **Computations in lockstep can be composed.**  If the first ones agree on a value, the second
ones go on with it from worlds that are alike; if the first ones are interrupted, so is the whole.
Where one run may stop early, its log is the start of the other log, and stays so whatever the
other run goes on to do. -/
theorem InStep.bind {x y : Run α} {f g : α → Run β} (h : C.InStep Q x y)
    (hg : ∀ a, Q a → C.InStep R (f a) (g a)) : C.InStep R (x >>= f) (y >>= g) := by
  refine ⟨h.keeps.bind fun a ha => (hg a ha).keeps, fun w w' halike hw' => ?_⟩
  have hfirst := h.agree w w' halike hw'
  have hkeeps := h.keeps w' hw'
  show C.Agree (EStateM.bind x f w) (EStateM.bind y g w')
  unfold EStateM.bind
  generalize x w = r at hfirst
  generalize y w' = r' at hfirst hkeeps
  cases hfirst with
  | value hsame => exact (hg _ hkeeps.1).agree _ _ hsame hkeeps.2.1
  | halt hsame => exact .halt hsame
  | stopped hstop hview =>
    -- the first run is over, and whatever the second one goes on with adds to its log
    cases r' with
    | error e w₂ => exact .stopped hstop hview
    | ok a w₂ => exact .stopped hstop (hview.trans ((hg a hkeeps.1).keeps w₂ hkeeps.2.1).view)

theorem inStep_pure {a : α} (ha : Q a) : C.InStep Q (pure a) (pure a) :=
  ⟨fun _ hw => ⟨ha, hw, List.prefix_refl _⟩, fun _ _ halike _ => .value halike⟩

theorem inStep_throw {e : Halt} (he : C.pass e) : C.InStep Q (throw e) (throw e) :=
  ⟨fun _ hw => ⟨he, hw, List.prefix_refl _⟩, fun _ _ halike _ => .halt halike⟩

/-- The first run may stop where the second one goes on. -/
theorem inStep_stop {e : Halt} (he : C.stop e) {y : Run α} (hy : C.Keeps Q y) :
    C.InStep Q (throw e) y := by
  refine ⟨hy, fun w w' halike hw' => .stopped he ?_⟩
  rw [halike.view]
  exact (hy w' hw').view

/-! ### The single steps -/

theorem inStep_onStore {op : Store → Except Halt (α × Store)}
    (hok : ∀ s a s', C.Stocked s → op s = .ok (a, s') → Q a ∧ C.Stocked s')
    (herror : ∀ s e, op s = .error e → C.pass e) :
    C.InStep Q (Run.onStore op) (Run.onStore op) := by
  constructor
  · -- what one run keeps by itself
    intro w hw
    unfold Run.onStore
    cases hop : op w.store with
    | error e => exact ⟨herror _ e hop, hw, List.prefix_refl _⟩
    | ok result =>
      obtain ⟨a, s'⟩ := result
      obtain ⟨ha, hs'⟩ := hok _ a s' hw.stocked hop
      exact ⟨ha, ⟨hs', hw.events⟩, List.prefix_refl _⟩
  · -- what the two runs have in common
    intro w w' halike _
    unfold Run.onStore
    rw [halike.store]
    cases op w'.store with
    | error e => exact .halt halike
    | ok result => exact .value ⟨rfl, halike.view⟩

theorem inStep_readVariable (scope : ScopeId) (name : String) :
    C.InStep C.Sound (Run.readVariable scope name) (Run.readVariable scope name) := by
  rw [Run.readVariable_eq_onStore]
  refine inStep_onStore ?_ ?_
  · intro s v s' hs hop
    cases hget : s.get? scope name with
    | none =>
      rw [hget] at hop
      cases hop
    | some u =>
      rw [hget] at hop
      obtain ⟨rfl, rfl⟩ := Prod.mk.inj (Except.ok.inj hop)
      -- what is read was bound, and all that is bound is sound
      refine ⟨fun f hf => ?_, hs⟩
      obtain ⟨i, hbound⟩ := Store.mem_bindings_of_get? hget
      rw [hf] at hbound
      exact hs i name f hbound
  · intro s e hop
    cases hget : s.get? scope name with
    | none =>
      rw [hget] at hop
      obtain rfl := Except.error.inj hop
      exact C.undefined name
    | some u =>
      rw [hget] at hop
      cases hop

theorem inStep_assignVariable (scope : ScopeId) (name : String) {v : Value} (hv : C.Sound v) :
    C.InStep (fun _ => True) (Run.assignVariable scope name v)
      (Run.assignVariable scope name v) := by
  rw [Run.assignVariable_eq_onStore]
  refine inStep_onStore ?_ ?_
  · intro s _ s' hs hop
    cases htarget : s.target? scope name with
    | none =>
      rw [htarget] at hop
      cases hop
    | some i =>
      rw [htarget] at hop
      obtain ⟨-, rfl⟩ := Prod.mk.inj (Except.ok.inj hop)
      -- what is bound now is the assigned value, or was bound before
      refine ⟨trivial, fun j n f hf => ?_⟩
      rcases Store.mem_bindings_of_define hf with hnew | hold
      · exact hv f (Prod.mk.inj hnew).2.symm
      · exact hs j n f hold
  · intro s e hop
    cases htarget : s.target? scope name with
    | none =>
      rw [htarget] at hop
      obtain rfl := Except.error.inj hop
      exact C.undefined name
    | some i =>
      rw [htarget] at hop
      cases hop

theorem inStep_makeClosure (parameters : List String) {body : Term} (hbody : C.Fit body)
    (scope : ScopeId) :
    C.InStep C.Sound (Run.makeClosure parameters body scope)
      (Run.makeClosure parameters body scope) := by
  rw [Run.makeClosure_eq_onStore]
  refine inStep_onStore ?_ ?_
  · intro s v s' hs hop
    obtain ⟨rfl, rfl⟩ := Prod.mk.inj (Except.ok.inj hop)
    refine ⟨fun f hf => ?_, hs⟩
    obtain rfl := Value.closure.inj hf
    exact hbody
  · intro s e hop
    cases hop

theorem inStep_openScope (f : Closure) {vs : List Value} (hvs : ∀ v ∈ vs, C.Sound v) :
    C.InStep (fun _ => True) (Run.openScope f vs) (Run.openScope f vs) := by
  rw [Run.openScope_eq_onStore]
  refine inStep_onStore ?_ ?_
  · intro s i s' hs hop
    obtain ⟨-, rfl⟩ := Prod.mk.inj (Except.ok.inj hop)
    refine ⟨trivial, fun j name g hg => ?_⟩
    rcases Store.mem_bindings_of_extend hg with hnew | hold
    · exact hvs _ (closure_mem_of_mem_bindArguments hnew rfl) g rfl
    · exact hs j name g hold
  · intro s e hop
    cases hop

theorem view_push (w : World) (e : Event) :
    C.view { w with log := w.log.push e } = C.view w ++ [e].filter C.compared := by
  simp only [view, Array.toList_push, List.filter_append]

theorem inStep_emit {event : Event} (hevent : C.event event) :
    C.InStep (fun _ => True) (Run.emit event) (Run.emit event) := by
  constructor
  · intro w hw
    refine ⟨trivial, ⟨hw.stocked, fun e he => ?_⟩, ?_⟩
    · simp only [Array.toList_push, List.mem_append, List.mem_singleton] at he
      rcases he with hold | rfl
      · exact hw.events e hold
      · exact hevent
    · simp only [Array.toList_push, List.prefix_append]
  · intro w w' halike _
    refine .value ⟨halike.store, ?_⟩
    rw [view_push, view_push, halike.view]

/-- A step of a trace is in the first log only, and is not compared. -/
theorem inStep_step {sort text : String} (htracing : C.tracing = true) :
    C.InStep (fun _ => True) (Run.emit (.step sort text)) (pure ()) := by
  refine ⟨(inStep_pure trivial).keeps, fun w w' halike _ => .value ⟨halike.store, ?_⟩⟩
  rw [view_push, List.filter_cons_of_neg (by simp [C.step sort text htracing]), ← halike.view]
  exact List.append_nil _

theorem inStep_traceAssign (name : String) (v : Value) :
    C.InStep (fun _ => True) (Run.traceAssign C.tracing name v)
      (Run.traceAssign false name v) := by
  cases htracing : C.tracing with
  | false => exact inStep_pure trivial
  | true => exact inStep_step htracing

theorem inStep_traceCall {callee : Term} {arguments : List Term}
    (hnode : C.node (.call callee arguments)) (vs : List Value) :
    C.InStep (fun _ => True) (Run.traceCall C.tracing callee vs)
      (Run.traceCall false callee vs) := by
  cases htracing : C.tracing with
  | false => exact inStep_pure trivial
  | true =>
    rw [Run.traceCall, if_pos rfl]
    cases hrender : callee.render with
    | ok text => exact inStep_step htracing
    | error fault =>
      -- the callee has no text, so the traced run is over
      exact inStep_stop (C.callee htracing hnode hrender) (inStep_pure trivial).keeps

theorem inStep_callHost (f : HostFunction) {vs : List Value}
    (hlength : vs.length = f.parameters.length) (hvs : ∀ v ∈ vs, C.Sound v) :
    C.InStep C.Sound (Run.callHost f vs) (Run.callHost f vs) := by
  have hresult : C.Sound (Run.hostResult f vs) :=
    (Run.mem_or_plain_hostResult f vs).elim (hvs _) sound_of_plain
  refine (inStep_emit (C.hostCall hlength)).bind fun _ _ => ?_
  cases Run.hostOutput f vs with
  | none => exact inStep_pure hresult
  | some text => exact (inStep_emit (C.output text)).bind fun _ _ => inStep_pure hresult

/-- An operator gives a number, a truth value or one of its operands. -/
theorem sound_of_apply {op : Operator} {l r v : Value} (hl : C.Sound l) (hr : C.Sound r)
    (h : op.apply l r = .ok v) : C.Sound v := by
  rcases Operator.eq_or_plain_of_apply h with rfl | rfl | hplain
  · exact hl
  · exact hr
  · exact sound_of_plain hplain

theorem inStep_apply {op : Operator} {left right : Term} (hnode : C.node (.binary op left right))
    {l r : Value} (hl : C.Sound l) (hr : C.Sound r) :
    C.InStep C.Sound (Run.ofExcept (op.apply l r)) (Run.ofExcept (op.apply l r)) := by
  cases happly : op.apply l r with
  | ok v => exact inStep_pure (sound_of_apply hl hr happly)
  | error fault => exact inStep_throw (C.operator hnode happly)

/-! ### Rows and calls -/

section Items

variable {item item' : Term → Run Value}
  (hitem : ∀ t, C.Fit t → C.InStep C.Sound (item t) (item' t))

include hitem

theorem inStep_each {ts : List Term} (hts : ∀ t ∈ ts, C.Fit t) :
    C.InStep (fun vs => ∀ v ∈ vs, C.Sound v) (Run.each item ts) (Run.each item' ts) := by
  induction ts with
  | nil => exact inStep_pure (by simp)
  | cons t ts ih =>
    obtain ⟨ht, hrest⟩ := List.forall_mem_cons.1 hts
    refine (hitem t ht).bind fun v hv => ?_
    exact (ih hrest).bind fun vs hvs => inStep_pure (List.forall_mem_cons.2 ⟨hv, hvs⟩)

theorem inStep_last {v : Value} (hv : C.Sound v) {ts : List Term} (hts : ∀ t ∈ ts, C.Fit t) :
    C.InStep C.Sound (Run.last item v ts) (Run.last item' v ts) := by
  induction ts generalizing v with
  | nil => exact inStep_pure hv
  | cons t ts ih =>
    obtain ⟨ht, hrest⟩ := List.forall_mem_cons.1 hts
    exact (hitem t ht).bind fun v hv => ih hv hrest

end Items

section Bodies

variable {body body' : Term → ScopeId → Run Value}
  (hbody : ∀ t scope, C.Fit t → C.InStep C.Sound (body t scope) (body' t scope))

include hbody

theorem inStep_invoke {f : Value} (hf : C.Sound f) {vs : List Value} (hvs : ∀ v ∈ vs, C.Sound v) :
    C.InStep C.Sound (Run.invoke body f vs) (Run.invoke body' f vs) := by
  cases f with
  | closure f =>
    exact (inStep_openScope f hvs).bind fun scope _ => hbody f.body scope (hf f rfl)
  | host f =>
    -- a host function gets one argument for each of its parameters
    refine inStep_callHost f ?_ fun v hv => ?_
    · rw [List.length_map, ← List.length_map (·.1), map_fst_bindArguments]
    · obtain ⟨b, hb, rfl⟩ := List.mem_map.1 hv
      rcases eq_false_or_mem_of_mem_bindArguments hb with hfalse | hmem
      · rw [hfalse]
        exact sound_of_plain rfl
      · exact hvs _ hmem
  | number x => exact inStep_throw (C.notAFunction _)
  | text s => exact inStep_throw (C.notAFunction _)
  | boolean b => exact inStep_throw (C.notAFunction _)

end Bodies

/-! ### Evaluation -/

variable (C) in
/-- The budgets of the two runs: they are the same, or the first one is smaller and running
out of it is a reason to stop. -/
def Within (n m : Nat) : Prop := n = m ∨ n < m ∧ C.stop .exhausted

theorem within_refl (n : Nat) : C.Within n n := .inl rfl

theorem Within.pred {n m : Nat} (h : C.Within (n + 1) (m + 1)) : C.Within n m :=
  h.imp Nat.succ.inj (And.imp_left Nat.lt_of_succ_lt_succ)

/-- Without a frame the first run stops. -/
theorem inStep_exhausted {m : Nat} (h : C.Within 0 (m + 1)) {y : Run α} (hy : C.Keeps Q y) :
    C.InStep Q (throw .exhausted) y := by
  rcases h with h | ⟨-, hstop⟩
  · cases h
  · exact inStep_stop hstop hy

/-- Two evaluations of the same terms, within the given budgets. -/
def Evaluates (C : Lockstep) (n m : Nat) : Prop :=
  ∀ t scope, C.Fit t →
    C.InStep C.Sound (evaluate C.tracing n t scope) (evaluate false m t scope)

theorem inStep_callWithin_succ {n m : Nat} (ih : C.Evaluates n m) {callee : Term}
    {arguments : List Term} (hfit : C.Fit (.call callee arguments)) (scope : ScopeId) {f : Value}
    (hf : C.Sound f) :
    C.InStep C.Sound (Run.callWithin C.tracing (n + 1) callee arguments scope f)
      (Run.callWithin false (m + 1) callee arguments scope f) := by
  have hitems : ∀ t ∈ arguments, C.Fit t := fun t ht => hfit.of_mem (List.mem_cons_of_mem _ ht)
  refine (inStep_each (fun t ht => ih t scope ht) hitems).bind fun vs hvs => ?_
  exact (inStep_traceCall hfit.here vs).bind fun _ _ => inStep_invoke ih hf hvs

theorem inStep_callWithin {n m : Nat} (hnm : C.Within n m)
    (ih : ∀ n' m', m' < m → C.Within n' m' → C.Evaluates n' m') {callee : Term}
    {arguments : List Term} (hfit : C.Fit (.call callee arguments)) (scope : ScopeId) {f : Value}
    (hf : C.Sound f) :
    C.InStep C.Sound (Run.callWithin C.tracing n callee arguments scope f)
      (Run.callWithin false m callee arguments scope f) := by
  cases m with
  | zero =>
    -- without a frame for the larger limit there is none for the smaller one
    obtain rfl : n = 0 := hnm.resolve_right fun h => Nat.not_lt_zero n h.1
    exact inStep_throw C.exhausted
  | succ m =>
    cases n with
    | zero =>
      -- the smaller limit stops here, and the other run keeps by itself what it has to
      have hsame := ih m m (Nat.lt_succ_self m) (within_refl m)
      exact inStep_exhausted hnm (inStep_callWithin_succ hsame hfit scope hf).keeps
    | succ n =>
      exact inStep_callWithin_succ (ih n m (Nat.lt_succ_self m) hnm.pred) hfit scope hf

/-- One more frame for both runs. -/
theorem inStep_evaluate_succ {n m : Nat} (hnm : C.Within n m) (hsub : C.Evaluates n m)
    (ih : ∀ n' m', m' < m → C.Within n' m' → C.Evaluates n' m') :
    C.Evaluates (n + 1) (m + 1) := by
  intro t scope hfit
  cases t with
  | number x => exact inStep_pure (sound_of_plain rfl)
  | text s => exact inStep_pure (sound_of_plain rfl)
  | boolean b => exact inStep_pure (sound_of_plain rfl)
  | var name => exact inStep_readVariable scope name
  | assign target value =>
    cases target with
    | var name =>
      refine (hsub value scope (hfit.of_mem (by simp [Term.under]))).bind fun v hv => ?_
      refine (inStep_assignVariable scope name hv).bind fun _ _ => ?_
      exact (inStep_traceAssign name v).bind fun _ _ => inStep_pure hv
    | _ => exact inStep_throw (C.notAssignable _)
  | binary op left right =>
    refine (hsub left scope (hfit.of_mem (by simp [Term.under]))).bind fun l hl => ?_
    refine (hsub right scope (hfit.of_mem (by simp [Term.under]))).bind fun r hr => ?_
    exact inStep_apply hfit.here hl hr
  | conditional condition consequent alternative =>
    refine (hsub condition scope (hfit.of_mem (by simp [Term.under]))).bind fun c _ => ?_
    split
    · exact hsub consequent scope (hfit.of_mem (by simp [Term.under]))
    · split
      · next hpresent =>
        exact hsub alternative scope (hfit.of_mem (by simp [Term.under, hpresent]))
      · exact inStep_pure (sound_of_plain rfl)
  | lambda parameters body =>
    exact inStep_makeClosure parameters (hfit.of_mem (by simp [Term.under])) scope
  | call callee arguments =>
    rw [Run.evaluate_call, Run.evaluate_call]
    refine (hsub callee scope (hfit.of_mem (by simp [Term.under]))).bind fun f hf => ?_
    -- a call takes a second frame for its arguments and the body
    exact inStep_callWithin hnm ih hfit scope hf
  | block body =>
    exact inStep_last (fun t ht => hsub t scope ht) (sound_of_plain rfl) fun t ht => hfit.of_mem ht
  | missing => exact inStep_throw (C.missing hfit.here)

/-- **Evaluation goes in lockstep.**  Two evaluations of one term, one of them perhaps with a
trace or with fewer frames, do the same in worlds that are alike, or the first one stops as the
lockstep allows.  That a trace changes nothing, that a limit only cuts a run off, and which faults
a run can end in are instances. -/
theorem inStep_evaluate {n m : Nat} (hnm : C.Within n m) : C.Evaluates n m := by
  -- the induction is on the larger budget; a call takes two frames of it at once
  induction m using Nat.strongRecOn generalizing n with
  | ind m ih =>
    have ih' : ∀ n' m', m' < m → C.Within n' m' → C.Evaluates n' m' :=
      fun n' m' hlt h => ih m' hlt h
    cases m with
    | zero =>
      obtain rfl : n = 0 := hnm.resolve_right fun h => Nat.not_lt_zero n h.1
      exact fun t scope _ => inStep_throw C.exhausted
    | succ m =>
      have hlower : ∀ n' m', m' < m → C.Within n' m' → C.Evaluates n' m' :=
        fun n' m' hlt => ih' n' m' (Nat.lt_succ_of_lt hlt)
      cases n with
      | zero =>
        -- the second run goes on alone; what it keeps is known from two equal budgets
        have hsame := ih' m m (Nat.lt_succ_self m) (within_refl m)
        intro t scope hfit
        have hboth := inStep_evaluate_succ (within_refl m) hsame hlower t scope hfit
        exact inStep_exhausted hnm hboth.keeps
      | succ n =>
        have hsub := ih' n m (Nat.lt_succ_self m) hnm.pred
        exact inStep_evaluate_succ hnm.pred hsub hlower

end Lockstep

end Lamlet
