import Lamlet.Proofs.Eval.Discipline
import Lamlet.Proofs.Eval.Lockstep

/-!
# What a run does, act by act

Evaluation changes the world in four ways only: something is added to the log, an identity is
used up, a name is bound in a scope, and a call opens a scope.  The acts of an evaluation are
listed here in their order, and performing them one after the other is what the evaluation
does to the world.  A discipline is then kept not only by the world that a run leaves, but at
every moment of the run.

## Main definitions

* `Act`, `World.perform` — the acts, and the world after some of them.
* `Told` — a computation with the list of its acts.
* `told` — evaluation with the list of its acts.
* `Discipline.Path`, `Discipline.Throughout` — a discipline is kept by each act.
* `Turn`, `World.history` — programs in turn, and all their acts.

## Main results

* `run_told` — **telling the acts of an evaluation does not change it.**
* `perform_acts_told` — performing the acts is what a run does to the world.
* `Discipline.throughout_told` — **evaluation keeps every discipline at every moment.**
* `Discipline.path_history` — the same for several programs in turn.
-/

namespace Lamlet

/-! ### Acts -/

/-- Something that evaluation does to the world. -/
inductive Act where
  /-- An event is added to the log. -/
  | log (event : Event)
  /-- A function is made. -/
  | make
  /-- A name gets a value in a scope. -/
  | bind (scope : ScopeId) (name : String) (value : Value)
  /-- A function is called, and the scope of the call is opened. -/
  | call (function : Closure) (arguments : List Value)
  deriving Repr, Inhabited

namespace World

/-- The world after an act. -/
def after (w : World) : Act → World
  | .log event => { w with log := w.log.push event }
  | .make => { w with store := w.store.newIdentity.2 }
  | .bind scope name value => { w with store := w.store.define scope name value }
  | .call f arguments => { w with store :=
      (w.store.extend f.scope (bindArguments f.parameters arguments) (some f)).2 }

/-- The world after several acts. -/
def perform (w : World) (acts : List Act) : World := acts.foldl after w

@[simp] theorem perform_nil (w : World) : w.perform [] = w := rfl

@[simp] theorem perform_cons (w : World) (act : Act) (acts : List Act) :
    w.perform (act :: acts) = (w.after act).perform acts := rfl

@[simp] theorem perform_append (w : World) (acts acts' : List Act) :
    w.perform (acts ++ acts') = (w.perform acts).perform acts' :=
  List.foldl_append

end World

/-! ### Computations with their acts -/

/-- A computation, with the list of what it does to a world. -/
structure Told (α : Type) where
  /-- The computation. -/
  run : Run α
  /-- Its acts, when it starts in a given world. -/
  acts : World → List Act
  /-- The acts lead to the world that the computation leaves. -/
  perform_acts : ∀ w, w.perform (acts w) = Run.worldOf (run w)

namespace Told

variable {α β : Type}

/-- A computation that leaves the world as it is. -/
def silent (x : Run α) (h : ∀ w, Run.worldOf (x w) = w) : Told α :=
  ⟨x, fun _ => [], fun w => (h w).symm⟩

/-- One computation after the other. -/
def bind (x : Told α) (f : α → Told β) : Told β where
  run := x.run >>= fun a => (f a).run
  acts w := x.acts w ++
    match x.run w with
    | .ok a w' => (f a).acts w'
    | .error _ _ => []
  perform_acts w := by
    rw [World.perform_append, x.perform_acts]
    show _ = Run.worldOf (EStateM.bind x.run (fun a => (f a).run) w)
    unfold EStateM.bind
    cases x.run w with
    | ok a w' => exact (f a).perform_acts w'
    | error e w' => rfl

instance : Monad Told where
  pure a := silent (pure a) fun _ => rfl
  bind := bind

/-- Stops early. -/
def throw (e : Halt) : Told α := silent (MonadExcept.throw e) fun _ => rfl

/-- Stops with a fault. -/
def fail (cause : Cause) : Told α := throw (.fault { cause })

/-- Takes over a result that may be a fault. -/
def ofExcept (x : Except Fault α) : Told α :=
  silent (Run.ofExcept x) fun _ => by cases x <;> rfl

/-- Adds to the log. -/
def emit (event : Event) : Told Unit := ⟨Run.emit event, fun _ => [.log event], fun _ => rfl⟩

/-- Reads a variable. -/
def readVariable (scope : ScopeId) (name : String) : Told Value :=
  silent (Run.readVariable scope name) fun w => by
    rw [Run.readVariable_apply]
    cases w.store.get? scope name <;> rfl

/-- Gives a variable a value. -/
def assignVariable (scope : ScopeId) (name : String) (value : Value) : Told Unit where
  run := Run.assignVariable scope name value
  acts w :=
    match w.store.target? scope name with
    | some i => [.bind i name value]
    | none => []
  perform_acts w := by
    rw [Run.assignVariable_apply]
    cases w.store.target? scope name <;> rfl

/-- Makes a function. -/
def makeClosure (parameters : List String) (body : Term) (scope : ScopeId) : Told Value :=
  ⟨Run.makeClosure parameters body scope, fun _ => [.make], fun _ => rfl⟩

/-- Opens the scope of a call. -/
def openScope (f : Closure) (arguments : List Value) : Told ScopeId :=
  ⟨Run.openScope f arguments, fun _ => [.call f arguments], fun _ => rfl⟩

/-- Calls a host function. -/
def callHost (f : HostFunction) (arguments : List Value) : Told Value := do
  emit (.hostCall f arguments)
  match Run.hostOutput f arguments with
  | some text => emit (.output text)
  | none => pure ()
  return Run.hostResult f arguments

/-- Calls a value. -/
def invoke (body : Term → ScopeId → Told Value) : Value → List Value → Told Value
  | .closure f, arguments => do
    let scope ← openScope f arguments
    body f.body scope
  | .host f, arguments => callHost f ((bindArguments f.parameters arguments).map (·.2))
  | v, _ => fail (.notAFunction v.shown)

/-- Evaluates terms in order and collects their values. -/
def each (item : Term → Told Value) : List Term → Told (List Value)
  | [] => pure []
  | t :: ts => do
    let v ← item t
    let vs ← each item ts
    return v :: vs

/-- Evaluates terms in order and keeps the last value, starting with the given one. -/
def last (item : Term → Told Value) : Value → List Term → Told Value
  | v, [] => pure v
  | _, t :: ts => do
    let v ← item t
    last item v ts

/-- Traces an assignment. -/
def traceAssign (tracing : Bool) (name : String) (value : Value) : Told Unit :=
  if tracing then emit (.step "assign" (name ++ " = " ++ value.described)) else pure ()

/-- Traces a call. -/
def traceCall (tracing : Bool) (callee : Term) (arguments : List Value) : Told Unit :=
  if tracing then do
    let text ← ofExcept callee.render
    emit (.step "call"
      (text ++ "(" ++ Text.joinWith ", " (arguments.map Value.described) ++ ")"))
  else
    pure ()

end Told

/-- The value of a term in a scope, with the acts of its evaluation. -/
def told (tracing : Bool) : Nat → Term → ScopeId → Told Value
  | 0, _, _ => .throw .exhausted
  | frames + 1, term, scope =>
    match term with
    | .number x => pure (.number x)
    | .text s => pure (.text s)
    | .boolean b => pure (.boolean b)
    | .var name => .readVariable scope name
    | .assign (.var name) value => do
      let v ← told tracing frames value scope
      Told.assignVariable scope name v
      Told.traceAssign tracing name v
      return v
    | .assign target _ => .fail (.notAssignable target.title.toLower)
    | .binary op left right => do
      let l ← told tracing frames left scope
      let r ← told tracing frames right scope
      Told.ofExcept (op.apply l r)
    | .conditional condition consequent alternative => do
      let c ← told tracing frames condition scope
      if c.isTrue then told tracing frames consequent scope
      else if alternative.isPresent then told tracing frames alternative scope
      else return .boolean false
    | .lambda parameters body => .makeClosure parameters body scope
    | .call callee arguments => do
      let f ← told tracing frames callee scope
      match frames with
      | 0 => .throw .exhausted
      | inner + 1 =>
        let vs ← Told.each (fun t => told tracing inner t scope) arguments
        Told.traceCall tracing callee vs
        Told.invoke (told tracing inner) f vs
    | .block body => .last (fun t => told tracing frames t scope) (.boolean false) body
    | .missing => .fail .noExpression

/-! ### Telling changes nothing -/

namespace Told

variable {α β : Type}

theorem run_bind (x : Told α) (f : α → Told β) :
    (x >>= f).run = x.run >>= fun a => (f a).run := rfl

theorem run_each (item : Term → Told Value) (ts : List Term) :
    (each item ts).run = Run.each (fun t => (item t).run) ts := by
  induction ts with
  | nil => rfl
  | cons t ts ih =>
    simp only [each, Run.each, run_bind, ih]
    rfl

theorem run_last (item : Term → Told Value) (v : Value) (ts : List Term) :
    (last item v ts).run = Run.last (fun t => (item t).run) v ts := by
  induction ts generalizing v with
  | nil => rfl
  | cons t ts ih => simp only [last, Run.last, run_bind, ih]

theorem run_traceAssign (tracing : Bool) (name : String) (value : Value) :
    (traceAssign tracing name value).run = Run.traceAssign tracing name value := by
  cases tracing <;> rfl

theorem run_traceCall (tracing : Bool) (callee : Term) (arguments : List Value) :
    (traceCall tracing callee arguments).run = Run.traceCall tracing callee arguments := by
  cases tracing <;> rfl

theorem run_callHost (f : HostFunction) (arguments : List Value) :
    (callHost f arguments).run = Run.callHost f arguments := by
  unfold callHost Run.callHost
  cases Run.hostOutput f arguments <;> rfl

theorem run_invoke (body : Term → ScopeId → Told Value) (f : Value) (arguments : List Value) :
    (invoke body f arguments).run
      = Run.invoke (fun t scope => (body t scope).run) f arguments := by
  cases f with
  | host f => exact run_callHost f _
  | _ => rfl

end Told

/-- **Telling the acts of an evaluation does not change it.** -/
theorem run_told (tracing : Bool) (frames : Nat) (term : Term) (scope : ScopeId) :
    (told tracing frames term scope).run = evaluate tracing frames term scope := by
  induction frames using Nat.strongRecOn generalizing term scope with
  | ind frames ih =>
    cases frames with
    | zero => rfl
    | succ frames =>
      -- a call leaves two frames fewer to its arguments and the body, so the induction is a
      -- strong one
      have ih' := fun t => ih frames (Nat.lt_succ_self _) t scope
      cases term with
      | assign target value =>
        cases target with
        | var name =>
          simp only [told, evaluate, Told.run_bind, ih', Told.run_traceAssign]
          rfl
        | _ => rfl
      | binary op left right =>
        simp only [told, evaluate, Told.run_bind, ih']
        rfl
      | conditional condition consequent alternative =>
        simp only [told, evaluate, Told.run_bind, ih']
        refine bind_congr fun c => ?_
        split
        · exact ih' consequent
        · split
          · exact ih' alternative
          · rfl
      | call callee arguments =>
        rw [told, evaluate, Told.run_bind, ih']
        refine bind_congr fun f => ?_
        cases frames with
        | zero => rfl
        | succ inner =>
          have hinner := fun t scope => ih inner (by omega) t scope
          simp only [Told.run_bind, Told.run_each, Told.run_traceCall, Told.run_invoke, hinner]
      | block body => simp only [told, evaluate, Told.run_last, ih']
      | _ => rfl

/-- Performing the acts is what a run does to the world. -/
theorem perform_acts_told (tracing : Bool) (frames : Nat) (term : Term) (scope : ScopeId)
    (w : World) :
    w.perform ((told tracing frames term scope).acts w) = (run tracing frames term scope w).2 := by
  rw [(told tracing frames term scope).perform_acts, run_told, run_eq]

/-! ### Disciplines at every moment -/

namespace Discipline

variable (D : Discipline) {α β : Type}

/-- Acts lead from one state to another, and each of them is a change that the discipline
allows. -/
inductive Path : Watched → List Act → Watched → Prop where
  | nil (s : Watched) : Path s [] s
  | cons {s s' s'' : Watched} {act : Act} {acts : List Act} : s'.world = s.world.after act →
      D.Moves s s' → Path s' acts s'' → Path s (act :: acts) s''

/-- Each act of a computation is a change that the discipline allows, and a value comes
with `Q`. -/
def Throughout (x : Told α) (s : Watched) (Q : Watched → α → Prop) : Prop :=
  ∃ s', D.Path s (x.acts s.world) s' ∧ ∀ a w, x.run s.world = .ok a w → Q s' a

variable {D} {s s' s'' : Watched} {acts acts' : List Act}

namespace Path

theorem world_eq (h : D.Path s acts s') : s'.world = s.world.perform acts := by
  induction h with
  | nil s => rfl
  | cons hworld _ _ ih => rw [ih, hworld, World.perform_cons]

theorem moves (h : D.Path s acts s') (hs : D.good s) : D.Moves s s' := by
  induction h with
  | nil s => exact moves_refl hs
  | cons _ hmoves _ ih => exact hmoves.trans (ih hmoves.1)

theorem append (h : D.Path s acts s') (h' : D.Path s' acts' s'') :
    D.Path s (acts ++ acts') s'' := by
  induction h with
  | nil s => exact h'
  | cons hworld hmoves _ ih => exact .cons hworld hmoves (ih h')

/-- A path can be cut at every moment. -/
theorem split (h : D.Path s (acts ++ acts') s'') :
    ∃ s', D.Path s acts s' ∧ D.Path s' acts' s'' := by
  induction acts generalizing s with
  | nil => exact ⟨s, .nil s, h⟩
  | cons act acts ih =>
    cases h with
    | cons hworld hmoves hrest =>
      obtain ⟨s', hfirst, hsecond⟩ := ih hrest
      exact ⟨s', .cons hworld hmoves hfirst, hsecond⟩

end Path

/-- A computation that does nothing. -/
theorem throughout_silent {x : Told α} (hacts : x.acts s.world = [])
    {Q : Watched → α → Prop} (hQ : ∀ a w, x.run s.world = .ok a w → Q s a) :
    D.Throughout x s Q := by
  refine ⟨s, ?_, hQ⟩
  rw [hacts]
  exact .nil s

/-- A computation that does one thing. -/
theorem throughout_act {x : Told α} {act : Act} (s' : Watched)
    (hacts : x.acts s.world = [act]) (hworld : s'.world = s.world.after act)
    (hmoves : D.Moves s s') {Q : Watched → α → Prop}
    (hQ : ∀ a w, x.run s.world = .ok a w → Q s' a) : D.Throughout x s Q := by
  refine ⟨s', ?_, hQ⟩
  rw [hacts]
  exact .cons hworld hmoves (.nil s')

theorem throughout_pure {Q : Watched → α → Prop} {a : α} (ha : Q s a) :
    D.Throughout (pure a) s Q := by
  refine throughout_silent rfl fun b w h => ?_
  obtain ⟨rfl, -⟩ := EStateM.Result.ok.inj h
  exact ha

theorem throughout_throw {Q : Watched → α → Prop} (e : Halt) : D.Throughout (.throw e) s Q :=
  throughout_silent rfl fun _ _ h => nomatch h

/-- The acts of two computations in turn are those of the first one, and then those of the
second one from the world that the first one leaves. -/
theorem throughout_bind (hs : D.good s) {x : Told α} {f : α → Told β} {Q : Watched → α → Prop}
    {R : Watched → β → Prop} (hx : D.Throughout x s Q)
    (hf : ∀ a s', D.good s' → D.step s s' → Q s' a → D.Throughout (f a) s' R) :
    D.Throughout (x >>= f) s R := by
  obtain ⟨s₁, hpath, hvalue⟩ := hx
  obtain ⟨hs₁, hstep₁⟩ := hpath.moves hs
  have hleft : s₁.world = Run.worldOf (x.run s.world) := by
    rw [hpath.world_eq, x.perform_acts]
  have hacts : (x >>= f).acts s.world = x.acts s.world ++
      match x.run s.world with
      | .ok a w' => (f a).acts w'
      | .error _ _ => [] := rfl
  have hrun : (x >>= f).run s.world = EStateM.bind x.run (fun a => (f a).run) s.world := rfl
  unfold Throughout
  rw [hacts, hrun, EStateM.bind]
  cases hfirst : x.run s.world with
  | error e w =>
    -- the first one is interrupted, and nothing of the second one is done
    refine ⟨s₁, ?_, fun a w h => nomatch h⟩
    simpa using hpath
  | ok a w =>
    rw [hfirst] at hleft
    obtain rfl : s₁.world = w := hleft
    -- the path of the second one starts where that of the first one ends
    obtain ⟨s₂, hpath₂, hvalue₂⟩ := hf a s₁ hs₁ hstep₁ (hvalue a _ hfirst)
    exact ⟨s₂, hpath.append hpath₂, hvalue₂⟩

/-! ### The single steps -/

theorem throughout_emit (hs : D.good s) (event : Event) :
    D.Throughout (.emit event) s fun _ _ => True :=
  throughout_act (s.emit event) rfl rfl (D.emit event hs) fun _ _ _ => trivial

theorem throughout_ofExcept {Q : Watched → α → Prop} {x : Except Fault α}
    (h : ∀ a, x = .ok a → Q s a) : D.Throughout (.ofExcept x) s Q := by
  refine throughout_silent rfl fun a w ha => ?_
  cases x with
  | error fault => cases ha
  | ok b =>
    obtain ⟨rfl, -⟩ := EStateM.Result.ok.inj ha
    exact h b rfl

theorem throughout_readVariable (hs : D.good s) {p : Standpoint} {name : String}
    (hfit : D.fit s p (.var name)) :
    D.Throughout (.readVariable p.scope name) s D.sound := by
  refine throughout_silent rfl fun v w hv => ?_
  change Run.readVariable p.scope name s.world = .ok v w at hv
  rw [Run.readVariable_apply] at hv
  split at hv
  · next value hget =>
    obtain ⟨rfl, -⟩ := EStateM.Result.ok.inj hv
    exact D.read hs hfit hget
  · cases hv

theorem throughout_assignVariable (hs : D.good s) {p : Standpoint} {name : String} {value : Term}
    {v : Value} (hfit : D.fit s p (.assign (.var name) value)) (hv : D.sound s v) :
    D.Throughout (.assignVariable p.scope name v) s fun _ _ => True := by
  cases htarget : s.world.store.target? p.scope name with
  | none =>
    refine throughout_silent ?_ fun _ _ _ => trivial
    simp only [Told.assignVariable, htarget]
  | some i =>
    have hacts : (Told.assignVariable p.scope name v).acts s.world = [.bind i name v] := by
      simp only [Told.assignVariable, htarget]
    exact throughout_act (s.define i name v) hacts rfl (D.write hs hfit hv htarget)
      fun _ _ _ => trivial

theorem throughout_traceAssign (hs : D.good s) (tracing : Bool) (name : String) (v : Value) :
    D.Throughout (.traceAssign tracing name v) s fun _ _ => True := by
  cases tracing with
  | false => exact throughout_pure trivial
  | true => exact throughout_emit hs _

theorem throughout_traceCall (hs : D.good s) (tracing : Bool) (callee : Term)
    (vs : List Value) : D.Throughout (.traceCall tracing callee vs) s fun _ _ => True := by
  cases tracing with
  | false => exact throughout_pure trivial
  | true =>
    refine throughout_bind hs (throughout_ofExcept (Q := fun _ _ => True) fun _ _ => trivial) ?_
    intro text s' hs' _ _
    exact throughout_emit hs' _

theorem throughout_callHost (hs : D.good s) (f : HostFunction) {vs : List Value}
    (hvs : ∀ v ∈ vs, D.sound s v) : D.Throughout (.callHost f vs) s D.sound := by
  have hresult : D.sound s (Run.hostResult f vs) :=
    (Run.mem_or_plain_hostResult f vs).elim (hvs _) (D.plain s)
  refine throughout_bind hs (throughout_emit hs _) ?_
  intro _ s' hs' hstep _
  cases Run.hostOutput f vs with
  | none => exact throughout_pure (D.sound_mono hstep hresult)
  | some text =>
    refine throughout_bind hs' (throughout_emit hs' _) ?_
    intro _ s'' hs'' hstep' _
    exact throughout_pure (D.sound_mono (D.trans hstep hstep') hresult)

/-! ### Rows and calls -/

section Items

variable {item : Term → ScopeId → Told Value}
  (hitem : ∀ {s p t}, D.good s → D.fit s p t → D.Throughout (item t p.scope) s D.sound)

include hitem

theorem throughout_each {p : Standpoint} {i : Nat} {ts : List Term} (hs : D.good s)
    (hfit : ∀ j t, ts[j]? = some t → D.fit s (p.part (i + j)) t) :
    D.Throughout (.each (fun t => item t p.scope) ts) s fun s' vs => ∀ v ∈ vs, D.sound s' v := by
  induction ts generalizing i s with
  | nil => exact throughout_pure (by simp)
  | cons t ts ih =>
    refine throughout_bind hs (hitem (p := p.part i) hs (hfit 0 t rfl)) ?_
    intro v s₁ hs₁ hstep₁ hv
    -- the other terms are still fit in the world that the first one leaves
    have hrest : ∀ j u, ts[j]? = some u → D.fit s₁ (p.part (i + 1 + j)) u := by
      intro j u hu
      have hlater := D.fit_mono hstep₁ (hfit (j + 1) u hu)
      rwa [Nat.add_comm j 1, ← Nat.add_assoc] at hlater
    refine throughout_bind hs₁ (ih hs₁ hrest) ?_
    intro vs s₂ hs₂ hstep₂ hvs
    refine throughout_pure ?_
    intro u hu
    rcases List.mem_cons.1 hu with rfl | hu
    · exact D.sound_mono hstep₂ hv
    · exact hvs u hu

theorem throughout_last {p : Standpoint} {i : Nat} {v : Value} {ts : List Term} (hs : D.good s)
    (hv : D.sound s v) (hfit : ∀ j t, ts[j]? = some t → D.fit s (p.part (i + j)) t) :
    D.Throughout (.last (fun t => item t p.scope) v ts) s D.sound := by
  induction ts generalizing i s v with
  | nil => exact throughout_pure hv
  | cons t ts ih =>
    refine throughout_bind hs (hitem (p := p.part i) hs (hfit 0 t rfl)) ?_
    intro u s₁ hs₁ hstep₁ hu
    refine ih hs₁ hu (i := i + 1) ?_
    intro j t' ht'
    have hlater := D.fit_mono hstep₁ (hfit (j + 1) t' ht')
    rwa [Nat.add_comm j 1, ← Nat.add_assoc] at hlater

theorem throughout_invoke {f : Value} {vs : List Value} (hs : D.good s) (hf : D.sound s f)
    (hvs : ∀ v ∈ vs, D.sound s v) : D.Throughout (.invoke item f vs) s D.sound := by
  cases f with
  | closure f =>
    obtain ⟨hgood, hstep, hbody⟩ := D.enter hs hf hvs
    -- opening the scope is one act, which enters the call; from there on the body is fit
    have hopen : D.Throughout (.openScope f vs) s
        fun s' scope => s' = s.enter f vs ∧ scope = s.world.store.scopes.size := by
      refine throughout_act (s.enter f vs) rfl rfl ⟨hgood, hstep⟩ fun scope w h => ?_
      obtain ⟨rfl, -⟩ := EStateM.Result.ok.inj h
      exact ⟨rfl, rfl⟩
    refine throughout_bind hs hopen ?_
    rintro scope s' - - ⟨rfl, rfl⟩
    exact hitem hgood hbody
  | host f =>
    refine throughout_callHost hs f ?_
    intro v hv
    obtain ⟨b, hb, rfl⟩ := List.mem_map.1 hv
    exact sound_of_mem_bindArguments hvs hb
  | _ => exact throughout_throw _

end Items

/-! ### Evaluation -/

/-- **Evaluation keeps every discipline at every moment.**  From a good world, a term that fits
its standpoint does one act after the other, and each of them is a change that the discipline
allows; if there is a value at the end, it is a sound one.  What a discipline says therefore holds
in the middle of a run as well, and of runs that end in a fault or without a frame. -/
theorem throughout_told (tracing : Bool) (frames : Nat) {s : Watched} {p : Standpoint}
    {term : Term} (hs : D.good s) (hfit : D.fit s p term) :
    D.Throughout (told tracing frames term p.scope) s D.sound := by
  -- a call takes two frames at once, so the frame right below is not enough
  induction frames using Nat.strongRecOn generalizing s p term with
  | ind frames ih =>
    cases frames with
    | zero => exact throughout_throw _
    | succ frames =>
      have ih' := fun {s p t} => @ih frames (Nat.lt_succ_self _) s p t
      cases term with
      | number x => exact throughout_pure (D.plain s rfl)
      | text x => exact throughout_pure (D.plain s rfl)
      | boolean x => exact throughout_pure (D.plain s rfl)
      | var name => exact throughout_readVariable hs hfit
      | assign target value =>
        cases target with
        | var name =>
          refine throughout_bind hs (ih' (p := p.part 1) hs (D.part rfl rfl hfit)) ?_
          intro v s₁ hs₁ hstep₁ hv
          refine throughout_bind hs₁ (throughout_assignVariable hs₁ (D.fit_mono hstep₁ hfit) hv) ?_
          intro _ s₂ hs₂ hstep₂ _
          refine throughout_bind hs₂ (throughout_traceAssign hs₂ tracing name v) ?_
          intro _ s₃ hs₃ hstep₃ _
          exact throughout_pure (D.sound_mono (D.trans hstep₂ hstep₃) hv)
        | _ => exact throughout_throw _
      | binary op left right =>
        refine throughout_bind hs (ih' (p := p.part 0) hs (D.part rfl rfl hfit)) ?_
        intro l s₁ hs₁ hstep₁ hl
        refine throughout_bind hs₁
          (ih' (p := p.part 1) hs₁ (D.fit_mono hstep₁ (D.part rfl rfl hfit))) ?_
        intro r s₂ hs₂ hstep₂ hr
        exact throughout_ofExcept fun v hv => sound_of_apply (D.sound_mono hstep₂ hl) hr hv
      | conditional condition consequent alternative =>
        refine throughout_bind hs (ih' (p := p.part 0) hs (D.part rfl rfl hfit)) ?_
        intro c s₁ hs₁ hstep₁ _
        split
        · exact ih' (p := p.part 1) hs₁ (D.fit_mono hstep₁ (D.part rfl rfl hfit))
        · split
          · exact ih' (p := p.part 2) hs₁ (D.fit_mono hstep₁ (D.part rfl rfl hfit))
          · exact throughout_pure (D.plain s₁ rfl)
      | lambda parameters body =>
        obtain ⟨hgood, hstep, hsound⟩ := D.make hs hfit
        refine throughout_act (s.make p) rfl rfl ⟨hgood, hstep⟩ fun f w h => ?_
        obtain ⟨rfl, -⟩ := EStateM.Result.ok.inj h
        exact hsound
      | call callee arguments =>
        rw [told]
        refine throughout_bind hs (ih' (p := p.part 0) hs (D.part rfl rfl hfit)) ?_
        intro f s₁ hs₁ hstep₁ hf
        cases frames with
        | zero => exact throughout_throw _
        | succ inner =>
          have hinner := fun {s p t} => @ih inner (by omega) s p t
          have harguments : ∀ j t, arguments[j]? = some t → D.fit s₁ (p.part (1 + j)) t := by
            intro j t ht
            refine D.fit_mono hstep₁ (D.part rfl ?_ hfit)
            rw [Nat.add_comm]
            exact ht
          refine throughout_bind hs₁ (throughout_each hinner hs₁ harguments) ?_
          intro vs s₂ hs₂ hstep₂ hvs
          refine throughout_bind hs₂ (throughout_traceCall hs₂ tracing callee vs) ?_
          intro _ s₃ hs₃ hstep₃ _
          refine throughout_invoke hinner hs₃ (D.sound_mono (D.trans hstep₂ hstep₃) hf) ?_
          exact fun v hv => D.sound_mono hstep₃ (hvs v hv)
      | block body =>
        refine throughout_last ih' (i := 0) hs (D.plain s rfl) fun j t ht => ?_
        rw [Nat.zero_add]
        exact D.part (t := .block body) rfl ht hfit
      | missing => exact throughout_throw _

end Discipline

/-! ### Several programs in turn -/

/-- A program, and how it is run. -/
structure Turn where
  /-- Whether the run is traced. -/
  tracing : Bool
  /-- The depth limit. -/
  frames : Nat
  /-- The expressions of the program. -/
  program : List Term
  deriving Repr, Inhabited

namespace World

/-- The world after a program, whatever it ends with. -/
def take (w : World) (turn : Turn) : World :=
  (run turn.tracing turn.frames (.block turn.program) Store.globalScope w).2

/-- The world after several programs. -/
def takeAll (w : World) (turns : List Turn) : World := turns.foldl take w

/-- The acts of several programs, one after the other. -/
def history (w : World) : List Turn → List Act
  | [] => []
  | turn :: turns =>
    (told turn.tracing turn.frames (.block turn.program) Store.globalScope).acts w
      ++ (w.take turn).history turns

/-- Performing the acts of several programs is what they do to the world. -/
theorem perform_history (w : World) (turns : List Turn) :
    w.perform (w.history turns) = w.takeAll turns := by
  induction turns generalizing w with
  | nil => rfl
  | cons turn turns ih =>
    rw [history, perform_append, perform_acts_told]
    exact ih (w.take turn)

end World

/-- Programs keep a discipline at every moment, if each of them may be evaluated in every
good world. -/
theorem Discipline.path_history {D : Discipline} (turns : List Turn)
    (hfit : ∀ turn ∈ turns, ∀ s, D.good s → D.fit s .start (.block turn.program))
    {s : Watched} (hs : D.good s) : ∃ s', D.Path s (s.world.history turns) s' := by
  induction turns generalizing s with
  | nil => exact ⟨s, .nil s⟩
  | cons turn turns ih =>
    obtain ⟨s₁, hpath, -⟩ := throughout_told turn.tracing turn.frames hs
      (hfit turn (List.mem_cons_self ..) s hs)
    -- the watch has got to the world in which the next program starts
    have hworld : s₁.world = s.world.take turn := by
      rw [hpath.world_eq]
      exact perform_acts_told ..
    obtain ⟨s₂, hpath₂⟩ := ih (fun turn hturn => hfit turn (List.mem_cons_of_mem _ hturn))
      (hpath.moves hs).1
    rw [hworld] at hpath₂
    exact ⟨s₂, hpath.append hpath₂⟩

end Lamlet
