import Lamlet.Store
import Lamlet.Value.Apply

/-!
# Evaluation

Terms are evaluated against a store of scopes.  Each step that nests, the evaluation of
a subterm, of a row of arguments or of a call, takes one frame from a budget; when no
frame is left the evaluation stops.  What a program writes, the calls it makes to the
host and the steps of a trace are kept in a log, in order.

## Main definitions

* `Event`, `World` — the log, and the log with the store.
* `Halt`, `Run` — how evaluation stops early, and computations in a world.  What was done
  before a stop stays done.
* `evaluate` — the value of a term in a scope.
* `run` — the same for a whole program, running out of frames being a fault.
* `Store.withHosts`, `World.initial` — the world that programs start in.
-/

namespace Lamlet

open Text

/-! ### The world of a program -/

/-- Something that happened while a program ran. -/
inductive Event where
  /-- The program wrote a text. -/
  | output (text : String)
  /-- A step of a trace: its sort, and what was done. -/
  | step (sort text : String)
  /-- A host function was called. -/
  | hostCall (function : HostFunction) (arguments : List Value)
  /-- The interpreter itself wrote a text. -/
  | notice (text : String)
  deriving Repr, Inhabited

/-- The state of a program: its scopes, and the log of what happened. -/
structure World where
  /-- The scopes. -/
  store : Store
  /-- What happened so far. -/
  log : Array Event := #[]
  deriving Repr, Inhabited

/-- How evaluation stops early. -/
inductive Halt where
  /-- By a fault of the program. -/
  | fault (fault : Fault)
  /-- Because no frame is left. -/
  | exhausted
  deriving DecidableEq, Repr, Inhabited

/-- A computation in a world that may stop early. -/
abbrev Run := EStateM Halt World

namespace Run

/-- Stops with a fault. -/
def fail {α : Type} (cause : Cause) : Run α := throw (.fault { cause })

/-- Takes over a result that may be a fault. -/
def ofExcept {α : Type} : Except Fault α → Run α
  | .ok x => pure x
  | .error fault => throw (.fault fault)

/-- Adds to the log. -/
def emit (event : Event) : Run Unit := modify fun w => { w with log := w.log.push event }

/-- Reads a variable. -/
def readVariable (scope : ScopeId) (name : String) : Run Value := do
  match (← get).store.get? scope name with
  | some value => pure value
  | none => fail (.undefinedVariable name)

/-- Gives a variable a value. -/
def assignVariable (scope : ScopeId) (name : String) (value : Value) : Run Unit := do
  match (← get).store.target? scope name with
  | some target => modify fun w => { w with store := w.store.define target name value }
  | none => fail (.undefinedVariable name)

/-- Makes a function. -/
def makeClosure (parameters : List String) (body : Term) (scope : ScopeId) : Run Value :=
  modifyGet fun w =>
    let (identity, store) := w.store.newIdentity
    (.closure { identity, parameters, body, scope }, { w with store })

/-- Opens the scope of a call. -/
def openScope (f : Closure) (arguments : List Value) : Run ScopeId :=
  modifyGet fun w =>
    let (scope, store) := w.store.extend f.scope (bindArguments f.parameters arguments) (some f)
    (scope, { w with store })

/-- What a host function writes when it is called. -/
def hostOutput (f : HostFunction) (arguments : List Value) : Option String :=
  let first := (arguments.headD (.boolean false)).shown
  match f.action with
  | .print => some first
  | .println => some (first ++ "\n")
  | .observe => none

/-- What a call of a host function returns. -/
def hostResult (f : HostFunction) (arguments : List Value) : Value :=
  match f.action with
  | .observe => arguments.headD (.boolean false)
  | _ => .boolean false

/-- Calls a host function. -/
def callHost (f : HostFunction) (arguments : List Value) : Run Value := do
  emit (.hostCall f arguments)
  match hostOutput f arguments with
  | some text => emit (.output text)
  | none => pure ()
  return hostResult f arguments

/-- Calls a value.  `body` evaluates the body of a function in the scope of the call. -/
def invoke (body : Term → ScopeId → Run Value) : Value → List Value → Run Value
  | .closure f, arguments => do
    let scope ← openScope f arguments
    body f.body scope
  | .host f, arguments => callHost f ((bindArguments f.parameters arguments).map (·.2))
  | v, _ => fail (.notAFunction v.shown)

/-- Evaluates terms in order and collects their values. -/
def each (item : Term → Run Value) : List Term → Run (List Value)
  | [] => pure []
  | t :: ts => do
    let v ← item t
    let vs ← each item ts
    return v :: vs

/-- Evaluates terms in order and keeps the last value, starting with the given one. -/
def last (item : Term → Run Value) : Value → List Term → Run Value
  | v, [] => pure v
  | _, t :: ts => do
    let v ← item t
    last item v ts

/-- Traces an assignment. -/
def traceAssign (tracing : Bool) (name : String) (value : Value) : Run Unit :=
  if tracing then emit (.step "assign" (name ++ " = " ++ value.described)) else pure ()

/-- Traces a call.  This fails if the callee cannot be written as text. -/
def traceCall (tracing : Bool) (callee : Term) (arguments : List Value) : Run Unit :=
  if tracing then do
    let text ← ofExcept callee.render
    emit (.step "call" (text ++ "(" ++ joinWith ", " (arguments.map Value.described) ++ ")"))
  else
    pure ()

end Run

/-! ### Evaluation -/

/-- The value of a term in a scope, within a budget of frames. -/
def evaluate (tracing : Bool) : Nat → Term → ScopeId → Run Value
  | 0, _, _ => throw .exhausted
  | frames + 1, term, scope =>
    match term with
    | .number x => pure (.number x)
    | .text s => pure (.text s)
    | .boolean b => pure (.boolean b)
    | .var name => Run.readVariable scope name
    | .assign (.var name) value => do
      let v ← evaluate tracing frames value scope
      Run.assignVariable scope name v
      Run.traceAssign tracing name v
      return v
    | .assign target _ => Run.fail (.notAssignable target.title.toLower)
    | .binary op left right => do
      let l ← evaluate tracing frames left scope
      let r ← evaluate tracing frames right scope
      Run.ofExcept (op.apply l r)
    | .conditional condition consequent alternative => do
      let c ← evaluate tracing frames condition scope
      if c.isTrue then evaluate tracing frames consequent scope
      else if alternative.isPresent then evaluate tracing frames alternative scope
      else return .boolean false
    | .lambda parameters body => Run.makeClosure parameters body scope
    | .call callee arguments => do
      let f ← evaluate tracing frames callee scope
      match frames with
      | 0 => throw .exhausted
      | inner + 1 =>
        let vs ← Run.each (fun t => evaluate tracing inner t scope) arguments
        Run.traceCall tracing callee vs
        Run.invoke (evaluate tracing inner) f vs
    | .block body => Run.last (fun t => evaluate tracing frames t scope) (.boolean false) body
    | .missing => Run.fail .noExpression

/-- Runs a term in a scope.  The world after the run is returned with the outcome; when
no frame is left that is a fault. -/
def run (tracing : Bool) (frames : Nat) (term : Term) (scope : ScopeId) (w : World) :
    Except Fault Value × World :=
  match (evaluate tracing frames term scope).run w with
  | .ok v w => (.ok v, w)
  | .error (.fault fault) w => (.error fault, w)
  | .error .exhausted w => (.error { cause := .stackExhausted }, w)

/-! ### Where programs start -/

namespace Store

/-- Defines a host function in the global scope. -/
def defineHost (s : Store) (name : String) (parameters : List String) (action : HostAction) :
    Store :=
  let (identity, s) := s.newIdentity
  s.define globalScope name (.host { identity, name, parameters, action })

/-- The store that programs start with: it has the functions that write. -/
def withHosts : Store :=
  (initial.defineHost "print" ["value"] .print).defineHost "println" ["value"] .println

end Store

/-- The world that programs start in. -/
def World.initial : World := { store := .withHosts }

end Lamlet
