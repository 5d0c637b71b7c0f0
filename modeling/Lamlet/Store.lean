import Lamlet.Assoc
import Lamlet.Value

/-!
# Scopes

Variables live in scopes.  A scope opened by a call lies inside the scope that the
called function was made in, and so on outward to the global scope.  All scopes stand in
one store and refer to each other by number, so that functions can outlive the calls
that made them.

## Main definitions

* `Scope`, `Scope.get?`, `Scope.bind` — one scope, its names in the order of binding.
* `Store`, `Store.initial` — all scopes, and the store with only a global one.
* `Store.chain`, `Store.lookup?` — the scopes around a scope, and the innermost of them
  that binds a name.
* `Store.get?`, `Store.define`, `Store.assign?`, `Store.extend` — the operations.
* `Store.target?` — the scope that an assignment changes.
-/

namespace Lamlet

open Text

/-! ### One scope -/

/-- A scope. -/
structure Scope where
  /-- The names bound in the scope with their values, in the order of first binding. -/
  bindings : List (String × Value) := []
  /-- The scopes around it, from the inside to the global one; none around that one. -/
  outer : List ScopeId := []
  /-- The function whose call opened the scope, if a call did.  Nothing that is computed from a
  scope depends on it: it is recorded for the proofs only, where it says which parameters the
  scope binds and where it lies. -/
  opener : Option Closure := none
  deriving Repr, Inhabited

namespace Scope

/-- The value of a name in the scope itself. -/
def get? (s : Scope) (name : String) : Option Value := s.bindings.lookup name

/-- Whether the scope itself binds a name. -/
def binds (s : Scope) (name : String) : Bool := (s.get? name).isSome

/-- The names that the scope itself binds. -/
def names (s : Scope) : List String := s.bindings.map (·.1)

/-- Binds a name in the scope itself. -/
def bind (s : Scope) (name : String) (value : Value) : Scope :=
  { s with bindings := Assoc.put name value s.bindings }

/-- Binds several names one after the other. -/
def bindAll (s : Scope) (bindings : List (String × Value)) : Scope :=
  bindings.foldl (fun s b => s.bind b.1 b.2) s

/-- Whether no scope lies around this one. -/
def isGlobal (s : Scope) : Bool := s.outer.isEmpty

/-- A line that names what the scope binds. -/
def summary (s : Scope) : String :=
  "Environment(variables=" ++ quotedList s.names ++ ", global="
    ++ (if s.isGlobal then "True" else "False") ++ ")"

end Scope

/-! ### All scopes -/

/-- The scopes of a program, and the identity of the next function to be made. -/
structure Store where
  /-- The scopes by number. -/
  scopes : Array Scope
  /-- The identity of the next function. -/
  fresh : Nat
  deriving Repr, Inhabited

namespace Store

/-- The number of the global scope. -/
def globalScope : ScopeId := 0

/-- A store with an empty global scope. -/
def initial : Store := ⟨#[{}], 0⟩

/-- A scope by number; a number without a scope has an empty one. -/
def scope (s : Store) (i : ScopeId) : Scope := s.scopes.getD i {}

/-- A scope and those around it, from the inside out. -/
def chain (s : Store) (i : ScopeId) : List ScopeId := i :: (s.scope i).outer

/-- The innermost scope on the chain that binds a name. -/
def lookup? (s : Store) (i : ScopeId) (name : String) : Option ScopeId :=
  (s.chain i).find? fun j => (s.scope j).binds name

/-- The value of a name, seen from a scope. -/
def get? (s : Store) (i : ScopeId) (name : String) : Option Value :=
  (s.lookup? i name).bind fun j => (s.scope j).get? name

/-- Binds a name in one scope, over any value that it has there. -/
def define (s : Store) (i : ScopeId) (name : String) (value : Value) : Store :=
  { s with scopes := s.scopes.modify i (·.bind name value) }

/-- The scope in which an assignment changes a name: the innermost one that binds it.  A
name that is not bound at all becomes a global one when it is assigned from the global
scope; from any other scope it cannot be assigned. -/
def target? (s : Store) (i : ScopeId) (name : String) : Option ScopeId :=
  match s.lookup? i name with
  | some j => some j
  | none => if (s.scope i).isGlobal then some i else none

/-- Gives a name a new value, where it can be assigned. -/
def assign? (s : Store) (i : ScopeId) (name : String) (value : Value) : Option Store :=
  (s.target? i name).map fun j => s.define j name value

/-- Opens a scope inside another, with some names bound in it.  The opener is the function
called, if a call opens the scope; it is only recorded. -/
def extend (s : Store) (i : ScopeId) (bindings : List (String × Value))
    (opener : Option Closure) : ScopeId × Store :=
  let inner : Scope := { outer := s.chain i, opener }
  (s.scopes.size, { s with scopes := s.scopes.push (inner.bindAll bindings) })

/-- An identity that no function has yet. -/
def newIdentity (s : Store) : Nat × Store := (s.fresh, { s with fresh := s.fresh + 1 })

end Store

end Lamlet
