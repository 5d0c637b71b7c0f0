import Lamlet.Proofs.Eval.Lockstep
import Lamlet.Proofs.Store.Reach
import Lamlet.Proofs.Store.Runs

/-!
# Evaluation is confined to what it reaches

Two runs of the same term start in worlds that agree on a closed set of scopes.  They do the
same at each step: they read and write inside the set or in scopes that they open, and the
functions that they get hold of refer to such scopes only.  For the set of the scopes that
are reached from where the run starts, this says that all other scopes neither matter nor
change, and so can be released.

## Main definitions

* `Event.OfRun` — the events that a run brings about.
* `Confinement` — the set of scopes, and the two worlds at the start.
* `Confinement.Beside` — two worlds that the two runs are in at the same moment.
* `Confinement.Local` — a computation that keeps to the set.
* `World.ReachedOrNew` — a scope was reached, or did not exist.
* `World.release`, `World.runInTurn` — empties scopes, and runs several terms.
* `World.Confined` — a run keeps to the scopes that are reached.

## Main results

* `Confinement.Local.bind` — local computations can be composed.
* `Confinement.local_evaluate` — **evaluation keeps to a closed set of scopes.**
* `exists_events_of_run` — a run only adds to the log, and never a text of the interpreter.
* `World.confined_of_runs` — **scopes that are not reached neither matter nor change.**
-/

namespace Lamlet

open Store

/-- An event that a run brings about.  The steps of a trace come from traced runs only, and
the texts of the interpreter itself come from none. -/
def Event.OfRun (tracing : Bool) : Event → Prop
  | output _ => True
  | hostCall _ _ => True
  | step _ _ => tracing = true
  | notice _ => False

/-- Two runs side by side that keep to a set of scopes. -/
structure Confinement where
  /-- Whether the runs are traced. -/
  tracing : Bool
  /-- The scopes that the runs keep to. -/
  region : ScopeId → Prop
  /-- The world that the first run starts in. -/
  first : World
  /-- The world that the second run starts in. -/
  second : World
  /-- Scopes that do not exist at the start belong to the set. -/
  later : ∀ i, first.store.scopes.size ≤ i → region i

namespace Confinement

variable (C : Confinement) {α β : Type}

/-! ### The two runs at one moment -/

/-- The scopes of the two runs: the same inside the set, and outside as they were. -/
structure Held (s t : Store) : Prop where
  grown : C.first.store.scopes.size ≤ s.scopes.size
  closed : s.Closed C.region
  agree : AgreeOn C.region s t
  outside : ∀ i, ¬ C.region i →
    s.scope i = C.first.store.scope i ∧ t.scope i = C.second.store.scope i

/-- The worlds of the two runs: the logs have grown by the same events. -/
structure Beside (w w' : World) : Prop where
  held : C.Held w.store w'.store
  events : ∃ events, w.log.toList = C.first.log.toList ++ events ∧
    w'.log.toList = C.second.log.toList ++ events ∧ ∀ e ∈ events, e.OfRun C.tracing

/-- A value that may appear: a function refers into the set. -/
def Sound (v : Value) : Prop := ∀ f, v = .closure f → C.region f.scope

/-- The outcomes of the two runs: the same value, which comes with `Q`, or the same halt. -/
inductive Both (Q : α → Prop) :
    EStateM.Result Halt World α → EStateM.Result Halt World α → Prop where
  | value {a : α} {w w' : World} : Q a → C.Beside w w' → Both Q (.ok a w) (.ok a w')
  | halt {e : Halt} {w w' : World} : C.Beside w w' → Both Q (.error e w) (.error e w')

/-- A computation that does the same in both runs, and keeps to the set. -/
def Local (Q : α → Prop) (x : Run α) : Prop :=
  ∀ w w', C.Beside w w' → C.Both Q (x w) (x w')

variable {C} {Q : α → Prop} {R : β → Prop}

theorem sound_of_plain {v : Value} (hv : v.identity? = none) : C.Sound v := by
  intro f hf
  rw [hf] at hv
  cases hv

theorem sound_of_apply {op : Operator} {l r v : Value} (hl : C.Sound l) (hr : C.Sound r)
    (h : op.apply l r = .ok v) : C.Sound v := by
  rcases Operator.eq_or_plain_of_apply h with rfl | rfl | hplain
  · exact hl
  · exact hr
  · exact sound_of_plain hplain

theorem sound_of_mem_bindArguments {ps : List String} {vs : List Value}
    (hvs : ∀ v ∈ vs, C.Sound v) {b : String × Value} (hb : b ∈ bindArguments ps vs) :
    C.Sound b.2 := by
  rcases eq_false_or_mem_of_mem_bindArguments hb with hfalse | hmem
  · rw [hfalse]
    exact sound_of_plain rfl
  · exact hvs _ hmem

/-! ### Composition -/

theorem local_pure {a : α} (ha : Q a) : C.Local Q (pure a) :=
  fun _ _ hbeside => .value ha hbeside

theorem local_throw (e : Halt) : C.Local Q (throw e) :=
  fun _ _ hbeside => .halt hbeside

/-- **Local computations can be composed.** -/
theorem Local.bind {x : Run α} {g : α → Run β} (hx : C.Local Q x)
    (hg : ∀ a, Q a → C.Local R (g a)) : C.Local R (x >>= g) := by
  intro w w' hbeside
  have hfirst := hx w w' hbeside
  show C.Both R (EStateM.bind x g w) (EStateM.bind x g w')
  unfold EStateM.bind
  generalize x w = r at hfirst
  generalize x w' = r' at hfirst
  cases hfirst with
  | value ha hnext => exact hg _ ha _ _ hnext
  | halt hnext => exact .halt hnext

/-! ### The scopes -/

namespace Held

variable {s t : Store}

theorem define (h : C.Held s t) {i : ScopeId} (hi : C.region i) (name : String) {v : Value}
    (hv : C.Sound v) : C.Held (s.define i name v) (t.define i name v) where
  grown := by
    rw [size_define]
    exact h.grown
  closed := h.closed.define i name hv
  agree := h.agree.define i name v
  outside j hj := by
    -- the scope that changes is inside the set
    have hne : ¬ (i = j ∧ j < s.scopes.size) := fun heq => hj (heq.1 ▸ hi)
    have hne' : ¬ (i = j ∧ j < t.scopes.size) := fun heq => hj (heq.1 ▸ hi)
    rw [scope_define, if_neg hne, scope_define, if_neg hne']
    exact h.outside j hj

theorem newIdentity (h : C.Held s t) : C.Held s.newIdentity.2 t.newIdentity.2 where
  grown := h.grown
  closed := ⟨h.closed.outer, h.closed.closures⟩
  agree := h.agree.newIdentity
  outside := h.outside

theorem region_size (h : C.Held s t) : C.region s.scopes.size := C.later _ h.grown

theorem extend (h : C.Held s t) {i : ScopeId} (hi : C.region i) {bs : List (String × Value)}
    (hbs : ∀ b ∈ bs, C.Sound b.2) (opener : Option Closure) :
    C.Held (s.extend i bs opener).2 (t.extend i bs opener).2 where
  grown := by
    rw [size_extend]
    exact Nat.le_succ_of_le h.grown
  closed := h.closed.extend hi hbs opener
  agree := h.agree.extend hi bs opener
  outside j hj := by
    -- so is the scope that is opened
    have hne : j ≠ s.scopes.size := fun heq => hj (heq ▸ h.region_size)
    rw [scope_extend, if_neg hne, scope_extend, h.agree.size, if_neg hne]
    exact h.outside j hj

end Held

/-- A step on the scopes that comes to the same in both runs, and keeps to the set. -/
inductive Steps (C : Confinement) (Q : α → Prop) :
    Except Halt (α × Store) → Except Halt (α × Store) → Prop where
  | value {a : α} {s t : Store} : Q a → C.Held s t → Steps C Q (.ok (a, s)) (.ok (a, t))
  | halt (e : Halt) : Steps C Q (.error e) (.error e)

theorem local_onStore {op : Store → Except Halt (α × Store)}
    (hop : ∀ s t, C.Held s t → C.Steps Q (op s) (op t)) : C.Local Q (Run.onStore op) := by
  intro w w' hbeside
  have hsteps := hop w.store w'.store hbeside.held
  unfold Run.onStore
  generalize op w.store = r at hsteps
  generalize op w'.store = r' at hsteps
  cases hsteps with
  | value ha hheld => exact .value ha ⟨hheld, hbeside.events⟩
  | halt e => exact .halt hbeside

theorem local_readVariable {scope : ScopeId} (hscope : C.region scope) (name : String) :
    C.Local C.Sound (Run.readVariable scope name) := by
  rw [Run.readVariable_eq_onStore]
  refine local_onStore fun s t hheld => ?_
  rw [hheld.agree.get?_eq hheld.closed hscope name]
  cases hget : s.get? scope name with
  | none => exact .halt _
  | some v =>
    refine .value (fun f hf => ?_) hheld
    rw [hf] at hget
    exact hheld.closed.of_get? hscope hget

theorem local_assignVariable {scope : ScopeId} (hscope : C.region scope) (name : String)
    {v : Value} (hv : C.Sound v) :
    C.Local (fun _ => True) (Run.assignVariable scope name v) := by
  rw [Run.assignVariable_eq_onStore]
  refine local_onStore fun s t hheld => ?_
  rw [hheld.agree.target?_eq hheld.closed hscope name]
  cases htarget : s.target? scope name with
  | none => exact .halt _
  | some i =>
    have hi := hheld.closed.of_target? hscope htarget
    exact .value trivial (hheld.define hi name hv)

theorem local_makeClosure (parameters : List String) (body : Term) {scope : ScopeId}
    (hscope : C.region scope) : C.Local C.Sound (Run.makeClosure parameters body scope) := by
  rw [Run.makeClosure_eq_onStore]
  refine local_onStore fun s t hheld => ?_
  -- functions are counted alike, so that the function made is the same
  rw [hheld.agree.fresh]
  refine .value (fun f hf => ?_) hheld.newIdentity
  obtain rfl := Value.closure.inj hf
  exact hscope

theorem local_openScope {f : Closure} (hf : C.region f.scope) {vs : List Value}
    (hvs : ∀ v ∈ vs, C.Sound v) : C.Local C.region (Run.openScope f vs) := by
  rw [Run.openScope_eq_onStore]
  refine local_onStore fun s t hheld => ?_
  have hbs : ∀ b ∈ bindArguments f.parameters vs, C.Sound b.2 :=
    fun b hb => sound_of_mem_bindArguments hvs hb
  -- scopes are counted alike, so that the scope opened has the same number
  have hnumber : t.extend f.scope (bindArguments f.parameters vs) (some f)
      = (s.scopes.size, (t.extend f.scope (bindArguments f.parameters vs) (some f)).2) := by
    rw [← hheld.agree.size]
    rfl
  rw [hnumber]
  exact .value hheld.region_size (hheld.extend hf hbs (some f))

/-! ### The log -/

theorem local_emit (event : Event) (hevent : event.OfRun C.tracing) :
    C.Local (fun _ => True) (Run.emit event) := by
  intro w w' hbeside
  obtain ⟨events, hfirst, hsecond, hall⟩ := hbeside.events
  refine .value trivial ⟨hbeside.held, events ++ [event], ?_, ?_, ?_⟩
  · rw [Array.toList_push, hfirst, List.append_assoc]
  · rw [Array.toList_push, hsecond, List.append_assoc]
  · intro e he
    rcases List.mem_append.1 he with hold | hnew
    · exact hall e hold
    · rw [List.mem_singleton.1 hnew]
      exact hevent

theorem local_traceAssign (name : String) (v : Value) :
    C.Local (fun _ => True) (Run.traceAssign C.tracing name v) := by
  cases htracing : C.tracing with
  | false => exact local_pure trivial
  | true => exact local_emit _ htracing

theorem local_ofExcept {x : Except Fault α} (h : ∀ a, x = .ok a → Q a) :
    C.Local Q (Run.ofExcept x) := by
  cases x with
  | ok a => exact local_pure (h a rfl)
  | error fault => exact local_throw _

theorem local_traceCall (callee : Term) (vs : List Value) :
    C.Local (fun _ => True) (Run.traceCall C.tracing callee vs) := by
  cases htracing : C.tracing with
  | false => exact local_pure trivial
  | true =>
    rw [Run.traceCall, if_pos rfl]
    refine (local_ofExcept (Q := fun _ => True) fun _ _ => trivial).bind fun text _ => ?_
    exact local_emit _ htracing

theorem local_callHost (f : HostFunction) {vs : List Value} (hvs : ∀ v ∈ vs, C.Sound v) :
    C.Local C.Sound (Run.callHost f vs) := by
  have hresult : C.Sound (Run.hostResult f vs) :=
    (Run.mem_or_plain_hostResult f vs).elim (hvs _) sound_of_plain
  refine (local_emit (C := C) (.hostCall f vs) trivial).bind fun _ _ => ?_
  cases Run.hostOutput f vs with
  | none => exact local_pure hresult
  | some text =>
    exact (local_emit (.output text) trivial).bind fun _ _ => local_pure hresult

/-! ### Rows and calls -/

section Items

variable {item : Term → Run Value} (hitem : ∀ t, C.Local C.Sound (item t))

include hitem

theorem local_each (ts : List Term) :
    C.Local (fun vs => ∀ v ∈ vs, C.Sound v) (Run.each item ts) := by
  induction ts with
  | nil => exact local_pure (by simp)
  | cons t ts ih =>
    refine (hitem t).bind fun v hv => ?_
    exact ih.bind fun vs hvs => local_pure (List.forall_mem_cons.2 ⟨hv, hvs⟩)

theorem local_last {v : Value} (hv : C.Sound v) (ts : List Term) :
    C.Local C.Sound (Run.last item v ts) := by
  induction ts generalizing v with
  | nil => exact local_pure hv
  | cons t ts ih => exact (hitem t).bind fun v hv => ih hv

end Items

theorem local_invoke {body : Term → ScopeId → Run Value}
    (hbody : ∀ t scope, C.region scope → C.Local C.Sound (body t scope)) {f : Value}
    (hf : C.Sound f) {vs : List Value} (hvs : ∀ v ∈ vs, C.Sound v) :
    C.Local C.Sound (Run.invoke body f vs) := by
  cases f with
  | closure f =>
    exact (local_openScope (hf f rfl) hvs).bind fun scope hscope => hbody f.body scope hscope
  | host f =>
    refine local_callHost f fun v hv => ?_
    obtain ⟨b, hb, rfl⟩ := List.mem_map.1 hv
    exact sound_of_mem_bindArguments hvs hb
  | number x => exact local_throw _
  | text s => exact local_throw _
  | boolean b => exact local_throw _

/-! ### Evaluation -/

/-- **Evaluation keeps to a closed set of scopes**, whatever it ends with, and does the same
in both runs. -/
theorem local_evaluate (frames : Nat) (t : Term) {scope : ScopeId} (hscope : C.region scope) :
    C.Local C.Sound (evaluate C.tracing frames t scope) := by
  induction frames using Nat.strongRecOn generalizing t scope with
  | ind frames ih =>
    cases frames with
    | zero => exact local_throw _
    | succ frames =>
      -- a call goes two frames down, so the induction is a strong one
      have hsub : ∀ u, C.Local C.Sound (evaluate C.tracing frames u scope) :=
        fun u => ih frames (Nat.lt_succ_self _) u hscope
      cases t with
      | number x => exact local_pure (sound_of_plain rfl)
      | text s => exact local_pure (sound_of_plain rfl)
      | boolean b => exact local_pure (sound_of_plain rfl)
      | var name => exact local_readVariable hscope name
      | assign target value =>
        cases target with
        | var name =>
          refine (hsub value).bind fun v hv => ?_
          refine (local_assignVariable hscope name hv).bind fun _ _ => ?_
          exact (local_traceAssign name v).bind fun _ _ => local_pure hv
        | _ => exact local_throw _
      | binary op left right =>
        refine (hsub left).bind fun l hl => ?_
        refine (hsub right).bind fun r hr => ?_
        exact local_ofExcept fun v hv => sound_of_apply hl hr hv
      | conditional condition consequent alternative =>
        refine (hsub condition).bind fun c _ => ?_
        split
        · exact hsub consequent
        · split
          · exact hsub alternative
          · exact local_pure (sound_of_plain rfl)
      | lambda parameters body => exact local_makeClosure parameters body hscope
      | call callee arguments =>
        rw [Run.evaluate_call]
        refine (hsub callee).bind fun f hf => ?_
        cases frames with
        | zero => exact local_throw _
        | succ inner =>
          have hinner : ∀ u scope, C.region scope →
              C.Local C.Sound (evaluate C.tracing inner u scope) :=
            fun u scope hscope => ih inner (by omega) u hscope
          refine (local_each (fun u => hinner u scope hscope) arguments).bind fun vs hvs => ?_
          exact (local_traceCall callee vs).bind fun _ _ => local_invoke hinner hf hvs
      | block body => exact local_last hsub (sound_of_plain rfl) body
      | missing => exact local_throw _

/-- What two runs side by side end with. -/
theorem run_beside (frames : Nat) (t : Term) {scope : ScopeId} (hscope : C.region scope)
    {w w' : World} (h : C.Beside w w') :
    (run C.tracing frames t scope w').1 = (run C.tracing frames t scope w).1 ∧
    C.Beside (run C.tracing frames t scope w).2 (run C.tracing frames t scope w').2 ∧
    ∀ v, (run C.tracing frames t scope w).1 = .ok v → C.Sound v := by
  have hboth := local_evaluate (C := C) frames t hscope w w' h
  rw [run_eq, run_eq]
  -- only the two results are left to compare
  generalize evaluate C.tracing frames t scope w = r at hboth
  generalize evaluate C.tracing frames t scope w' = r' at hboth
  cases hboth with
  | value ha hbeside =>
    refine ⟨rfl, hbeside, fun v hv => ?_⟩
    obtain rfl := Except.ok.inj hv
    exact ha
  | halt hbeside => exact ⟨rfl, hbeside, fun v hv => nomatch hv⟩

end Confinement

/-! ### The log of a run -/

/-- A run only adds to the log, and never a text of the interpreter. -/
theorem exists_events_of_run (tracing : Bool) (frames : Nat) (t : Term) (scope : ScopeId)
    (w : World) :
    ∃ events, (run tracing frames t scope w).2.log.toList = w.log.toList ++ events ∧
      ∀ e ∈ events, e.OfRun tracing := by
  -- every run keeps to the set of all scopes
  let C : Confinement := ⟨tracing, fun _ => True, w, w, fun _ _ => trivial⟩
  have hstart : C.Beside w w := by
    refine ⟨⟨Nat.le_refl _, closed_of_forall _ fun _ => trivial, .refl _, ?_⟩, [], ?_⟩
    · exact fun i hi => absurd trivial hi
    · simp [C]
  have hscope : C.region scope := trivial
  obtain ⟨-, hend, -⟩ := Confinement.run_beside frames t hscope hstart
  obtain ⟨events, hlog, -, hall⟩ := hend.events
  exact ⟨events, hlog, hall⟩

/-! ### Scopes that are not reached -/

namespace World

/-- Empties some scopes of a world. -/
def release (w : World) (dead : List ScopeId) : World := { w with store := w.store.release dead }

/-- Runs terms in the same scope one after the other, whatever each of them ends with. -/
def runInTurn (tracing : Bool) (frames : Nat) (scope : ScopeId) :
    List Term → World → List (Except Fault Value) × World
  | [], w => ([], w)
  | t :: ts, w =>
    let (outcome, w) := run tracing frames t scope w
    let (outcomes, w) := runInTurn tracing frames scope ts w
    (outcome :: outcomes, w)

/-- A scope was reached in a world, or there is one in a later world `w'` only. -/
def ReachedOrNew (w w' : World) (scope i : ScopeId) : Prop :=
  w.store.Reaches scope i ∨ w.store.scopes.size ≤ i ∧ i < w'.store.scopes.size

/-- A run keeps to the scopes that are reached from where it starts, whatever it ends with. -/
structure Confined (w : World) (scope : ScopeId) (tracing : Bool) (frames : Nat) (term : Term) :
    Prop where
  /-- A scope that exists and is not reached does not change. -/
  untouched : ∀ i, i < w.store.scopes.size → ¬ w.store.Reaches scope i →
    (run tracing frames term scope w).2.store.scope i = w.store.scope i
  /-- A function that is the value refers to a scope that was reached, or is new. -/
  result : ∀ f, (run tracing frames term scope w).1 = .ok (.closure f) →
    w.ReachedOrNew (run tracing frames term scope w).2 scope f.scope
  /-- So does a function that has been bound to a name. -/
  bound : ∀ i name f,
    ((run tracing frames term scope w).2.store.scope i).get? name = some (.closure f) →
    (w.store.scope i).get? name ≠ some (.closure f) →
    w.ReachedOrNew (run tracing frames term scope w).2 scope f.scope
  /-- What was not reached is not reached later. -/
  reached : ∀ i, (run tracing frames term scope w).2.store.Reaches scope i →
    w.ReachedOrNew (run tracing frames term scope w).2 scope i
  /-- Scopes that are not reached make no difference.  In a world where only they differ the
  outcome is the same, the same is added to the log, and the same is changed. -/
  same : ∀ w', AgreeOn (w.store.Reaches scope) w.store w'.store →
    (run tracing frames term scope w').1 = (run tracing frames term scope w).1 ∧
    (∃ events, (run tracing frames term scope w).2.log.toList = w.log.toList ++ events ∧
      (run tracing frames term scope w').2.log.toList = w'.log.toList ++ events) ∧
    AgreeOn (w.ReachedOrNew (run tracing frames term scope w).2 scope)
      (run tracing frames term scope w).2.store (run tracing frames term scope w').2.store ∧
    ∀ i, i < w.store.scopes.size → ¬ w.store.Reaches scope i →
      (run tracing frames term scope w').2.store.scope i = w'.store.scope i
  /-- They can be released: neither this run nor what is run after it in the same scope
  takes notice. -/
  released : ∀ dead, (∀ i ∈ dead, i < w.store.scopes.size ∧ ¬ w.store.Reaches scope i) →
    ∀ later, runInTurn tracing frames scope (term :: later) (w.release dead)
      = ((runInTurn tracing frames scope (term :: later) w).1,
        (runInTurn tracing frames scope (term :: later) w).2.release dead)

/-- Two worlds side by side, and the scopes that are reached in the first. -/
def reaching (w w' : World) (scope : ScopeId) (tracing : Bool) : Confinement where
  tracing := tracing
  region i := w.store.Reaches scope i ∨ w.store.scopes.size ≤ i
  first := w
  second := w'
  later _ hi := .inr hi

variable {w w' : World} {scope : ScopeId}

theorem not_region_of_unreached (tracing : Bool) {i : ScopeId} (hi : i < w.store.scopes.size)
    (h : ¬ w.store.Reaches scope i) : ¬ (w.reaching w' scope tracing).region i := by
  rintro (hreached | hlater)
  · exact h hreached
  · exact absurd hi (Nat.not_lt_of_le hlater)

theorem beside_reaching (hw : w.store.Sound) (hscope : scope < w.store.scopes.size)
    (h : AgreeOn (w.store.Reaches scope) w.store w'.store) (tracing : Bool) :
    (w.reaching w' scope tracing).Beside w w' where
  held := by
    refine ⟨Nat.le_refl _, hw.closed_reached hscope, ⟨h.size, h.fresh, ?_⟩, fun _ _ => ⟨rfl, rfl⟩⟩
    rintro i (hreached | hlater)
    · exact h.scope i hreached
    · -- neither world has such a scope
      rw [scope_of_size_le hlater, scope_of_size_le (h.size ▸ hlater)]
  events := ⟨[], by simp [reaching]⟩

/-- What is known of worlds side by side if the second started with scopes released. -/
theorem eq_release_of_beside {C : Confinement} {dead : List ScopeId}
    (hsecond : C.second = C.first.release dead) (hdead : ∀ i ∈ dead, ¬ C.region i)
    (h : C.Beside w w') : w' = w.release dead := by
  have hstore : w'.store = w.store.release dead := by
    -- the scopes of the region agree, and the others are those that each run started with
    refine eq_of_scope_eq ?_ h.held.agree.fresh fun i => ?_
    · rw [size_release]
      exact h.held.agree.size
    · rw [scope_release]
      by_cases hi : C.region i
      · rw [if_neg fun hmem => hdead i hmem hi]
        exact h.held.agree.scope i hi
      · rw [(h.held.outside i hi).1, (h.held.outside i hi).2, hsecond]
        exact scope_release _ _ _
  have hlog : w'.log = w.log := by
    obtain ⟨events, hfirst, hsecond', -⟩ := h.events
    rw [hsecond] at hsecond'
    exact Array.toList_inj.1 (hsecond'.trans hfirst.symm)
  cases w
  cases w'
  simp only [release, mk.injEq]
  exact ⟨hstore, hlog⟩

/-- Terms that are run in turn side by side. -/
theorem runInTurn_beside {C : Confinement} (frames : Nat) (hscope : C.region scope)
    (ts : List Term) (h : C.Beside w w') :
    (runInTurn C.tracing frames scope ts w').1 = (runInTurn C.tracing frames scope ts w).1 ∧
    C.Beside (runInTurn C.tracing frames scope ts w).2
      (runInTurn C.tracing frames scope ts w').2 := by
  induction ts generalizing w w' with
  | nil => exact ⟨rfl, h⟩
  | cons t ts ih =>
    obtain ⟨houtcome, hnext, -⟩ := Confinement.run_beside frames t hscope h
    obtain ⟨houtcomes, hlast⟩ := ih hnext
    exact ⟨congrArg₂ List.cons houtcome houtcomes, hlast⟩

/-- Released scopes are not missed, however much is run. -/
theorem runInTurn_release (hw : w.store.Sound) (hscope : scope < w.store.scopes.size)
    {dead : List ScopeId}
    (hdead : ∀ i ∈ dead, i < w.store.scopes.size ∧ ¬ w.store.Reaches scope i)
    (tracing : Bool) (frames : Nat) (ts : List Term) :
    runInTurn tracing frames scope ts (w.release dead)
      = ((runInTurn tracing frames scope ts w).1,
        (runInTurn tracing frames scope ts w).2.release dead) := by
  -- what is released was not reached, so it lies outside the region that both runs keep to
  have hout : ∀ i ∈ dead, ¬ (w.reaching (w.release dead) scope tracing).region i :=
    fun i hi => not_region_of_unreached tracing (hdead i hi).1 (hdead i hi).2
  have hagree : AgreeOn (w.store.Reaches scope) w.store (w.release dead).store :=
    agreeOn_release w.store fun i hi => (hdead i hi).2
  have hstart := beside_reaching hw hscope hagree tracing
  obtain ⟨houtcomes, hlast⟩ :=
    runInTurn_beside (C := w.reaching (w.release dead) scope tracing) frames (.inl .self) ts hstart
  exact Prod.ext houtcomes (eq_release_of_beside rfl hout hlast)

/-- **Scopes that are not reached neither matter nor change**, in every world that a session
reaches and whatever a run there ends with. -/
theorem confined_of_runs {w₀ w : World} (hfresh : w₀.Fresh) (hruns : Runs w₀ w)
    {scope : ScopeId} (hscope : scope < w.store.scopes.size) (tracing : Bool) (frames : Nat)
    (term : Term) : w.Confined scope tracing frames term := by
  have hsound := hruns.sound hfresh.sound
  obtain ⟨hsound', hextends, hvalue⟩ := run_keeps_in tracing frames term hsound hscope
  -- the run beside itself tells what it does to its own world
  have hself := beside_reaching hsound hscope (.refl _) tracing
  obtain ⟨-, hend, hresult⟩ :=
    Confinement.run_beside (C := w.reaching w scope tracing) frames term (.inl .self) hself
  have hnew : ∀ i, (w.reaching w scope tracing).region i →
      i < (Lamlet.run tracing frames term scope w).2.store.scopes.size →
      w.ReachedOrNew (Lamlet.run tracing frames term scope w).2 scope i :=
    fun i hi hlt => hi.imp id fun hlater => ⟨hlater, hlt⟩
  constructor
  · intro i hi hunreached
    exact (hend.held.outside i (not_region_of_unreached tracing hi hunreached)).1
  · intro f hf
    exact hnew _ (hresult _ hf f rfl) (hvalue f hf)
  · intro i name f hf hbefore
    have hregion : (w.reaching w scope tracing).region i := by
      -- outside the set the binding would have been there before
      by_contra hout
      exact hbefore ((hend.held.outside i hout).1 ▸ hf)
    exact hnew _ (hend.held.closed.closures i hregion name f hf)
      (hsound'.closures i name f (Assoc.mem_of_lookup hf))
  · intro i hi
    have hlt := hsound'.lt_size_of_reaches (Nat.lt_of_lt_of_le hscope hextends.size) hi
    exact hnew _ (hend.held.closed.of_reaches (.inl .self) hi) hlt
  · intro w' hagree
    have hstart := beside_reaching hsound hscope hagree tracing
    obtain ⟨houtcome, hend', -⟩ :=
      Confinement.run_beside (C := w.reaching w' scope tracing) frames term (.inl .self) hstart
    obtain ⟨events, hlog, hlog', -⟩ := hend'.events
    have hheld := hend'.held
    refine ⟨houtcome, ⟨events, hlog, hlog'⟩, ⟨hheld.agree.size, hheld.agree.fresh, ?_⟩, ?_⟩
    · exact fun i hi => hheld.agree.scope i (hi.imp id And.left)
    · exact fun i hi h => (hheld.outside i (not_region_of_unreached tracing hi h)).2
  · intro dead hdead later
    exact runInTurn_release hsound hscope hdead tracing frames (term :: later)

/-- The world after a function has been called twice.  What the first call returns is kept
and refers to the scope `1`; what the second returns, made in the scope `2`, is not. -/
def afterTwoCalls : World :=
  (Lamlet.run false 20 (.block
    [.assign (.var "f") (.lambda ["x"] (.lambda [] (.var "x"))),
      .assign (.var "g") (.call (.var "f") [.boolean true]),
      .call (.var "f") [.boolean false]]) globalScope .initial).2

theorem not_reaches_afterTwoCalls : ¬ afterTwoCalls.store.Reaches 1 2 := by
  have hsize : afterTwoCalls.store.scopes.size = 3 := by decide +kernel
  have hall : ∀ i < 3, i ≠ 2 → (∀ j ∈ (afterTwoCalls.store.scope i).outer, j ≠ 2) ∧
      ∀ b ∈ (afterTwoCalls.store.scope i).bindings,
        (match b.2 with | .closure f => f.scope != 2 | _ => true) = true := by
    decide +kernel
  -- all other scopes together are closed, so none of them leads to this one
  have hclosed : afterTwoCalls.store.Closed (· ≠ 2) := by
    constructor
    · intro i hi j hj
      by_cases hlt : i < 3
      · exact (hall i hlt hi).1 j hj
      · rw [scope_of_size_le (hsize ▸ Nat.le_of_not_lt hlt)] at hj
        cases hj
    · intro i hi name f hf
      by_cases hlt : i < 3
      · simpa using (hall i hlt hi).2 _ (Assoc.mem_of_lookup hf)
      · rw [scope_of_size_le (hsize ▸ Nat.le_of_not_lt hlt)] at hf
        cases hf
  exact fun hreached => hclosed.of_reaches (by decide) hreached rfl

theorem confined_of_runs_afterTwoCalls :
    World.initial.Fresh ∧ Runs .initial afterTwoCalls ∧ 1 < afterTwoCalls.store.scopes.size ∧
    2 < afterTwoCalls.store.scopes.size ∧ ¬ afterTwoCalls.store.Reaches 1 2 ∧
    afterTwoCalls.Confined 1 false 20 (.assign (.var "x") (.lambda [] (.var "x"))) := by
  have hruns : Runs .initial afterTwoCalls := .run _ _ _ .none
  have hone : 1 < afterTwoCalls.store.scopes.size := by decide +kernel
  exact ⟨fresh_initial, hruns, hone, by decide +kernel, not_reaches_afterTwoCalls,
    confined_of_runs fresh_initial hruns hone false 20 _⟩

end World

end Lamlet
