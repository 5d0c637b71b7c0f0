import Lamlet.Eval

/-!
# Runs under observation

An observer follows a run and knows at each moment which occurrence of the program is
evaluated, and in which calls.  It keeps a record of the functions that are made, with
the lambda that each one comes from, and of the variables that are looked up.  It changes
nothing: without the record, the observed run is the run.

## Main definitions

* `Path`, `Term.subterm?`, `Term.enclosing`, `Term.binder?` — the occurrences in a
  program, the lambdas around an occurrence, and the innermost of them with a parameter
  of a given name.
* `Standpoint` — where an evaluation stands: the occurrence, the calls around it, and the
  scope.
* `Watched` — the world with the record.
* `watch`, `observe` — evaluation and whole runs under observation.

## Main results

* `watch_erases`, `run_eq_observe` — **observing a run does not change it.**
-/

namespace Lamlet

open Text

/-! ### Occurrences -/

/-- The place of an occurrence in a program: which part to take of each term on the way
down to it, the last one first. -/
abbrev Path := List Nat

namespace Term

/-- The terms right below a term, in the order of the text, missing ones included. -/
def parts : Term → List Term
  | assign target value => [target, value]
  | binary _ left right => [left, right]
  | conditional condition consequent alternative => [condition, consequent, alternative]
  | lambda _ body => [body]
  | call callee arguments => callee :: arguments
  | block body => body
  | _ => []

/-- The term at a place in a program. -/
def subterm? (program : Term) : Path → Option Term
  | [] => some program
  | i :: path => (program.subterm? path).bind fun t => t.parts[i]?

/-- Whether a term is a lambda. -/
def isLambda : Term → Bool
  | lambda _ _ => true
  | _ => false

/-- Whether a term is a lambda with a parameter of the given name. -/
def hasParameter (name : String) : Term → Bool
  | lambda parameters _ => parameters.contains name
  | _ => false

/-- The places of the lambdas around an occurrence, from the inside out. -/
def enclosing (program : Term) : Path → List Path
  | [] => []
  | _ :: path =>
    if (program.subterm? path).any isLambda then path :: program.enclosing path
    else program.enclosing path

/-- The innermost lambda around an occurrence that has a parameter of the given name. -/
def binder? (program : Term) (path : Path) (name : String) : Option Path :=
  (program.enclosing path).find? fun q => (program.subterm? q).any (hasParameter name)

/-- Whether evaluating a term looks up a name itself: it is the variable, or assigns it. -/
def mentions (name : String) : Term → Prop
  | var n => n = name
  | assign (var n) _ => n = name
  | _ => False

end Term

/-! ### What the observer knows -/

/-- The calls around an occurrence, from the inside out: for each lambda around it, the
scope of the call of this lambda. -/
abbrev Display := List (Path × ScopeId)

/-- Where an evaluation stands. -/
structure Standpoint where
  /-- The occurrence that is evaluated. -/
  path : Path
  /-- The calls around it. -/
  display : Display
  /-- The scope that it is evaluated in. -/
  scope : ScopeId
  deriving Repr, Inhabited

/-- The standpoint of a part of the term that is evaluated. -/
def Standpoint.part (p : Standpoint) (i : Nat) : Standpoint := { p with path := i :: p.path }

/-- The start of a program. -/
def Standpoint.start : Standpoint := ⟨[], [], Store.globalScope⟩

/-- A variable that was looked up. -/
structure Lookup where
  /-- Its name. -/
  name : String
  /-- Where it was looked up. -/
  standpoint : Standpoint
  /-- The scopes as they were then. -/
  store : Store
  deriving Repr, Inhabited

/-- The world with the record of an observer. -/
structure Watched where
  /-- The world. -/
  world : World
  /-- The functions made, by identity: the lambda that each one comes from, and the calls
  around that lambda when the function was made. -/
  origins : List (Nat × Path × Display) := []
  /-- The variables that were looked up, the last one first. -/
  lookups : List Lookup := []
  deriving Repr, Inhabited

namespace Watched

/-- Adds to the log of the world. -/
def emit (s : Watched) (event : Event) : Watched :=
  { s with world := { s.world with log := s.world.log.push event } }

/-- Records that a variable is looked up. -/
def look (s : Watched) (p : Standpoint) (name : String) : Watched :=
  { s with lookups := ⟨name, p, s.world.store⟩ :: s.lookups }

/-- Gives a variable a value. -/
def define (s : Watched) (i : ScopeId) (name : String) (value : Value) : Watched :=
  { s with world := { s.world with store := s.world.store.define i name value } }

/-- Records the origin of the next function. -/
def expect (s : Watched) (p : Standpoint) : Watched :=
  { s with origins := (s.world.store.fresh, p.path, p.display) :: s.origins }

/-- Makes a function, and records its origin. -/
def make (s : Watched) (p : Standpoint) : Watched :=
  { s.expect p with world := { s.world with store := s.world.store.newIdentity.2 } }

/-- Opens the scope of a call. -/
def enter (s : Watched) (f : Closure) (arguments : List Value) : Watched :=
  { s with world := { s.world with store :=
      (s.world.store.extend f.scope (bindArguments f.parameters arguments) (some f)).2 } }

/-- The standpoint of the body of a function in the scope of a call: inside the lambda
that the function comes from, and inside the calls that were around it. -/
def body (s : Watched) (f : Closure) (scope : ScopeId) : Standpoint :=
  let origin := (s.origins.lookup f.identity).getD ([], [])
  ⟨0 :: origin.1, (origin.1, scope) :: origin.2, scope⟩

end Watched

/-! ### Evaluation under observation -/

/-- A computation in an observed world. -/
abbrev Watch := EStateM Halt Watched

namespace Watch

/-- A computation that the observer takes no notice of. -/
def lift {α : Type} (x : Run α) : Watch α := fun s =>
  match x s.world with
  | .ok a w => .ok a { s with world := w }
  | .error e w => .error e { s with world := w }

/-- Calls a value. -/
def invoke (body : Term → Standpoint → Watch Value) : Value → List Value → Watch Value
  | .closure f, arguments => do
    let scope ← lift (Run.openScope f arguments)
    let s ← get
    body f.body (s.body f scope)
  | .host f, arguments => lift (Run.callHost f ((bindArguments f.parameters arguments).map (·.2)))
  | v, _ => lift (Run.fail (.notAFunction v.shown))

/-- Evaluates terms in order, the first being the `i`th part of the term at hand, and
collects their values. -/
def each (item : Term → Standpoint → Watch Value) (p : Standpoint) :
    Nat → List Term → Watch (List Value)
  | _, [] => pure []
  | i, t :: ts => do
    let v ← item t (p.part i)
    let vs ← each item p (i + 1) ts
    return v :: vs

/-- Evaluates terms in order and keeps the last value. -/
def last (item : Term → Standpoint → Watch Value) (p : Standpoint) :
    Nat → Value → List Term → Watch Value
  | _, v, [] => pure v
  | i, _, t :: ts => do
    let v ← item t (p.part i)
    last item p (i + 1) v ts

end Watch

/-- The value of a term at a standpoint, with a record of what is made and looked up. -/
def watch (tracing : Bool) : Nat → Term → Standpoint → Watch Value
  | 0, _, _ => throw .exhausted
  | frames + 1, term, p =>
    match term with
    | .number x => pure (.number x)
    | .text s => pure (.text s)
    | .boolean b => pure (.boolean b)
    | .var name => do
      modify (·.look p name)
      Watch.lift (Run.readVariable p.scope name)
    | .assign (.var name) value => do
      let v ← watch tracing frames value (p.part 1)
      -- the target is looked up after the value is there
      modify (·.look p name)
      Watch.lift (Run.assignVariable p.scope name v)
      Watch.lift (Run.traceAssign tracing name v)
      return v
    | .assign target _ => Watch.lift (Run.fail (.notAssignable target.title.toLower))
    | .binary op left right => do
      let l ← watch tracing frames left (p.part 0)
      let r ← watch tracing frames right (p.part 1)
      Watch.lift (Run.ofExcept (op.apply l r))
    | .conditional condition consequent alternative => do
      let c ← watch tracing frames condition (p.part 0)
      if c.isTrue then watch tracing frames consequent (p.part 1)
      else if alternative.isPresent then watch tracing frames alternative (p.part 2)
      else return .boolean false
    | .lambda parameters body => do
      modify (·.expect p)
      Watch.lift (Run.makeClosure parameters body p.scope)
    | .call callee arguments => do
      let f ← watch tracing frames callee (p.part 0)
      match frames with
      | 0 => throw .exhausted
      | inner + 1 =>
        let vs ← Watch.each (watch tracing inner) p 1 arguments
        Watch.lift (Run.traceCall tracing callee vs)
        Watch.invoke (watch tracing inner) f vs
    | .block body => Watch.last (watch tracing frames) p 0 (.boolean false) body
    | .missing => Watch.lift (Run.fail .noExpression)

/-! ### Observing changes nothing -/

/-- The outcome of an observed computation without the record. -/
def Watch.forget {α : Type} :
    EStateM.Result Halt Watched α → EStateM.Result Halt World α
  | .ok a s => .ok a s.world
  | .error e s => .error e s.world

/-- Without the record, the observed computation `y` is the computation `x`. -/
def Watch.Erases {α : Type} (y : Watch α) (x : Run α) : Prop :=
  ∀ s : Watched, x s.world = forget (y s)

namespace Watch

variable {α β : Type}

theorem erases_pure (a : α) : Erases (pure a) (pure a) := fun _ => rfl

theorem erases_throw (e : Halt) : Erases (throw e : Watch α) (throw e) := fun _ => rfl

theorem erases_lift (x : Run α) : Erases (lift x) x := by
  intro s
  unfold lift
  cases x s.world with
  | ok a w => rfl
  | error e w => rfl

theorem lift_bind (x : Run α) (f : α → Run β) :
    lift (x >>= f) = lift x >>= fun a => lift (f a) := by
  funext s
  show lift (EStateM.bind x f) s = EStateM.bind (lift x) (fun a => lift (f a)) s
  simp only [lift, EStateM.bind]
  cases x s.world with
  | ok a w => rfl
  | error e w => rfl

theorem Erases.bind {y : Watch α} {x : Run α} {g : α → Watch β} {f : α → Run β}
    (h : Erases y x) (hg : ∀ a, Erases (g a) (f a)) : Erases (y >>= g) (x >>= f) := by
  intro s
  show EStateM.bind x f s.world = forget (EStateM.bind y g s)
  unfold EStateM.bind
  rw [h s]
  cases y s with
  | ok a s' => exact hg a s'
  | error e s' => rfl

/-- What only changes the record is not seen. -/
theorem Erases.after {y : Watch α} {x : Run α} (h : Erases y x) {note : Watched → Watched}
    (hnote : ∀ s, (note s).world = s.world) : Erases (do modify note; y) x := by
  intro s
  have hs := h (note s)
  rw [hnote] at hs
  exact hs

theorem erases_each {item : Term → Standpoint → Watch Value} {item' : Term → Run Value}
    (p : Standpoint) (h : ∀ t i, Erases (item t (p.part i)) (item' t)) (i : Nat)
    (ts : List Term) : Erases (each item p i ts) (Run.each item' ts) := by
  induction ts generalizing i with
  | nil => exact erases_pure []
  | cons t ts ih =>
    refine (h t i).bind fun v => ?_
    exact (ih (i + 1)).bind fun vs => erases_pure _

theorem erases_last {item : Term → Standpoint → Watch Value} {item' : Term → Run Value}
    (p : Standpoint) (h : ∀ t i, Erases (item t (p.part i)) (item' t)) (i : Nat) (v : Value)
    (ts : List Term) : Erases (last item p i v ts) (Run.last item' v ts) := by
  induction ts generalizing i v with
  | nil => exact erases_pure v
  | cons t ts ih => exact (h t i).bind fun v => ih (i + 1) v

theorem erases_invoke {body : Term → Standpoint → Watch Value} {body' : Term → ScopeId → Run Value}
    (h : ∀ t p, Erases (body t p) (body' t p.scope)) (f : Value) (vs : List Value) :
    Erases (invoke body f vs) (Run.invoke body' f vs) := by
  cases f with
  | closure f =>
    refine (erases_lift (Run.openScope f vs)).bind fun scope => ?_
    -- the record only tells where the body stands
    exact fun s => h f.body (s.body f scope) s
  | host f => exact erases_lift _
  | number x => exact erases_lift _
  | text s => exact erases_lift _
  | boolean b => exact erases_lift _

end Watch

open Watch in
/-- **Observing a run does not change it.**  The evaluation that keeps a record of standpoints and
lookups gives the same outcome as the plain one and leaves the same world, for every term and at
every standpoint; so what is proved of the record is proved of the run. -/
theorem watch_erases (tracing : Bool) (frames : Nat) (term : Term) (p : Standpoint) :
    Erases (watch tracing frames term p) (evaluate tracing frames term p.scope) := by
  induction frames using Nat.strongRecOn generalizing term p with
  | ind frames ih =>
    cases frames with
    | zero => exact erases_throw _
    | succ frames =>
      -- a call goes two frames down, so the induction is a strong one
      have ih' := fun t q => ih frames (Nat.lt_succ_self _) t q
      cases term with
      | number x => exact erases_pure _
      | text s => exact erases_pure _
      | boolean b => exact erases_pure _
      | var name => exact (erases_lift _).after fun s => rfl
      | assign target value =>
        cases target with
        | var name =>
          refine (ih' value (p.part 1)).bind fun v => Erases.after ?_ fun s => rfl
          refine (erases_lift _).bind fun _ => ?_
          exact (erases_lift _).bind fun _ => erases_pure v
        | _ => exact erases_lift _
      | binary op left right =>
        refine (ih' left (p.part 0)).bind fun l => ?_
        exact (ih' right (p.part 1)).bind fun r => erases_lift _
      | conditional condition consequent alternative =>
        refine (ih' condition (p.part 0)).bind fun c => ?_
        split
        · exact ih' consequent (p.part 1)
        · split
          · exact ih' alternative (p.part 2)
          · exact erases_pure _
      | lambda parameters body => exact (erases_lift _).after fun s => rfl
      | call callee arguments =>
        rw [watch, evaluate]
        refine (ih' callee (p.part 0)).bind fun f => ?_
        cases frames with
        | zero => exact erases_throw _
        | succ inner =>
          have hinner := fun t q => ih inner (by omega) t q
          refine (erases_each p (fun t i => hinner t (p.part i)) 1 arguments).bind fun vs => ?_
          exact (erases_lift _).bind fun _ => erases_invoke hinner f vs
      | block body => exact erases_last p (fun t i => ih' t (p.part i)) 0 _ body
      | missing => exact erases_lift _

/-! ### Whole runs -/

/-- Runs a term under observation. -/
def observe (tracing : Bool) (frames : Nat) (term : Term) (p : Standpoint) (s : Watched) :
    Except Fault Value × Watched :=
  match watch tracing frames term p s with
  | .ok v s => (.ok v, s)
  | .error (.fault fault) s => (.error fault, s)
  | .error .exhausted s => (.error { cause := .stackExhausted }, s)

/-- The observed run has the outcome of the run, and leaves the same world. -/
theorem run_eq_observe (tracing : Bool) (frames : Nat) (term : Term) (p : Standpoint)
    (s : Watched) :
    run tracing frames term p.scope s.world =
      ((observe tracing frames term p s).1, (observe tracing frames term p s).2.world) := by
  unfold run observe
  rw [EStateM.run, watch_erases tracing frames term p s]
  cases watch tracing frames term p s with
  | ok v s' => rfl
  | error e s' =>
    cases e with
    | fault fault => rfl
    | exhausted => rfl

end Lamlet
