import Lamlet.Proofs.Eval.Acts
import Lamlet.Proofs.Eval.Depth

/-!
# What a run writes

Only calls of host functions write.  An untraced run therefore writes what its calls of host
functions write, in the order of the calls, and nothing else.

## Main definitions

* `Act.Composed` — a property of lists of acts that holds of every untraced evaluation because
  it holds of the pieces.
* `World.printed` — what the calls of host functions wrote.

## Main results

* `Act.Composed.acts_told` — the acts of an untraced evaluation are put together from pieces.
* `written_of_run` — **an untraced run writes what its calls of host functions write.**
-/

namespace Lamlet

/-! ### Pieces of a list of acts -/

/-- The acts of a call of a host function. -/
def Act.ofHostCall (f : HostFunction) (vs : List Value) : List Act :=
  .log (.hostCall f vs) :: ((Run.hostOutput f vs).map fun text => .log (.output text)).toList

/-- The property holds of lists that are put together from the acts of untraced
evaluation. -/
structure Act.Composed (P : List Act → Prop) : Prop where
  nil : P []
  append {acts acts' : List Act} : P acts → P acts' → P (acts ++ acts')
  make : P [.make]
  bind (i : ScopeId) (name : String) (value : Value) : P [.bind i name value]
  call (f : Closure) (vs : List Value) : P [.call f vs]
  host (f : HostFunction) (vs : List Value) : P (ofHostCall f vs)

namespace Act.Composed

variable {P : List Act → Prop} (h : Composed P) {α β : Type}

include h

theorem acts_bind {x : Told α} {f : α → Told β} (hx : ∀ w, P (x.acts w))
    (hf : ∀ a w, P ((f a).acts w)) (w : World) : P ((x >>= f).acts w) := by
  change P ((Told.bind x f).acts w)
  simp only [Told.bind]
  apply h.append (hx w)
  cases x.run w with
  | ok a w' => exact hf a w'
  | error e w' => exact h.nil

theorem acts_each {item : Term → Told Value} (hitem : ∀ t w, P ((item t).acts w))
    (ts : List Term) : ∀ w, P ((Told.each item ts).acts w) := by
  induction ts with
  | nil => exact fun _ => h.nil
  | cons t ts ih => exact h.acts_bind (hitem t) fun v => h.acts_bind ih fun vs _ => h.nil

theorem acts_last {item : Term → Told Value} (hitem : ∀ t w, P ((item t).acts w)) (v : Value)
    (ts : List Term) : ∀ w, P ((Told.last item v ts).acts w) := by
  induction ts generalizing v with
  | nil => exact fun _ => h.nil
  | cons t ts ih => exact h.acts_bind (hitem t) fun v => ih v

theorem acts_callHost (f : HostFunction) (vs : List Value) (w : World) :
    P ((Told.callHost f vs).acts w) := by
  have hacts : (Told.callHost f vs).acts w = ofHostCall f vs := by
    unfold Told.callHost ofHostCall
    cases Run.hostOutput f vs <;> rfl
  rw [hacts]
  exact h.host f vs

theorem acts_invoke {body : Term → ScopeId → Told Value} (hbody : ∀ t i w, P ((body t i).acts w))
    (f : Value) (vs : List Value) : ∀ w, P ((Told.invoke body f vs).acts w) := by
  cases f with
  | closure f => exact h.acts_bind (fun _ => h.call f vs) fun scope => hbody f.body scope
  | host f => exact h.acts_callHost f _
  | _ => exact fun _ => h.nil

/-- **The acts of an untraced evaluation are put together from pieces.** -/
theorem acts_told (frames : Nat) (term : Term) (scope : ScopeId) :
    ∀ w, P ((told false frames term scope).acts w) := by
  induction frames using Nat.strongRecOn generalizing term scope with
  | ind frames ih =>
    cases frames with
    | zero => exact fun _ => h.nil
    | succ frames =>
      have ih' := fun t => ih frames (Nat.lt_succ_self _) t scope
      cases term with
      | assign target value =>
        cases target with
        | var name =>
          refine h.acts_bind (ih' value) fun v => h.acts_bind (fun w => ?_) fun _ _ => h.nil
          -- binding the name is the only act of the assignment itself, if there is a scope to
          -- bind it in
          simp only [Told.assignVariable]
          split
          · exact h.bind _ _ _
          · exact h.nil
        | _ => exact fun _ => h.nil
      | binary op left right =>
        exact h.acts_bind (ih' left) fun _ => h.acts_bind (ih' right) fun _ _ => h.nil
      | conditional condition consequent alternative =>
        refine h.acts_bind (ih' condition) fun c => ?_
        split
        · exact ih' consequent
        · split
          · exact ih' alternative
          · exact fun _ => h.nil
      | lambda parameters body => exact fun _ => h.make
      | call callee arguments =>
        rw [told]
        refine h.acts_bind (ih' callee) fun f => ?_
        cases frames with
        | zero => exact fun _ => h.nil
        | succ inner =>
          have hinner := fun t i => ih inner (by omega) t i
          refine h.acts_bind (h.acts_each (fun t => hinner t scope) arguments) fun vs => ?_
          exact h.acts_bind (fun _ => h.nil) fun _ => h.acts_invoke hinner f vs
      | block body => exact h.acts_last ih' _ body
      | _ => exact fun _ => h.nil

end Act.Composed

/-! ### The log -/

/-- The event that an act adds to the log, if it adds one. -/
def Act.event? : Act → Option Event
  | .log event => some event
  | _ => none

theorem World.log_perform (w : World) (acts : List Act) :
    (w.perform acts).log.toList = w.log.toList ++ acts.filterMap Act.event? := by
  induction acts generalizing w with
  | nil => simp
  | cons act acts ih =>
    rw [World.perform_cons, ih]
    cases act with
    | log event => simp [World.after, Act.event?]
    | _ => rfl

/-- What a call of a host function wrote. -/
def printedBy (c : HostFunction × List Value) : String := (Run.hostOutput c.1 c.2).getD ""

/-- What the calls of host functions wrote, in the order of the calls. -/
def World.printed (w : World) : String := String.join (w.hostCalls.map printedBy)

/-- The texts in a list of events are what its calls of host functions wrote. -/
def Event.Printed (events : List Event) : Prop :=
  Event.textOf false events = String.join ((events.filterMap hostCall?).map printedBy)

theorem Act.composed_printed :
    Act.Composed fun acts => Event.Printed (acts.filterMap Act.event?) where
  nil := rfl
  append {acts acts'} hfirst hsecond := by
    unfold Event.Printed Event.textOf at *
    rw [List.filterMap_append, List.map_append, String.join_append, hfirst, hsecond,
      List.filterMap_append, List.map_append, String.join_append]
  make := rfl
  bind _ _ _ := rfl
  call _ _ := rfl
  host f vs := by
    -- what a call prints is read off the call
    unfold Event.Printed Act.ofHostCall
    cases houtput : Run.hostOutput f vs with
    | none => simp [Act.event?, Event.textOf, Event.text, Event.hostCall?, printedBy, houtput]
    | some text =>
      have hcalls : [Event.hostCall f vs, Event.output text].filterMap Event.hostCall?
          = [(f, vs)] := rfl
      simp [Act.event?, Event.textOf, Event.text, hcalls, printedBy, houtput]

/-- **An untraced run writes what its calls of host functions write**, if nothing has been
written before. -/
theorem written_of_run (frames : Nat) (term : Term) (scope : ScopeId) {w : World}
    (hw : w.log.toList = []) :
    (run false frames term scope w).2.written false
      = (run false frames term scope w).2.printed := by
  rw [← perform_acts_told, World.written, World.printed, World.hostCalls, World.log_perform, hw,
    List.nil_append]
  exact Act.composed_printed.acts_told frames term scope w

end Lamlet
