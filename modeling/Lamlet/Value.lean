import Lamlet.Term.Render

/-!
# Values

What expressions evaluate to: numbers, texts, truth values and functions.  There is no
value for "nothing"; `false` stands in for it.

## Main definitions

* `Closure`, `HostFunction`, `Value` — the values.
* `Value.shown`, `Value.described`, `Value.literal` — the texts of a value.
* `Value.toNumber`, `Value.isTruthy` — a value as a number, and as a truth value.
* `Value.looselyEqual` — equality across kinds of values.
* `bindArguments` — how parameters get their values.
-/

namespace Lamlet

open Text

/-- Scopes are numbered in the order in which they are opened; the global one is the
first. -/
abbrev ScopeId := Nat

/-- A function written in the language, with the scope that it was made in. -/
structure Closure where
  /-- Tells functions apart that look the same. -/
  identity : Nat
  /-- The names of the parameters. -/
  parameters : List String
  /-- The body. -/
  body : Term
  /-- The scope that the function was made in. -/
  scope : ScopeId
  deriving Repr, Inhabited

/-- What a host function does when it is called. -/
inductive HostAction where
  /-- Writes its argument. -/
  | print
  /-- Writes its argument and a newline. -/
  | println
  /-- Returns its first argument, or `false` if it has none. -/
  | observe
  deriving DecidableEq, Repr, Inhabited

/-- A function provided from outside the language. -/
structure HostFunction where
  /-- Tells functions apart that look the same. -/
  identity : Nat
  /-- Its name. -/
  name : String
  /-- The names of the parameters. -/
  parameters : List String
  /-- What it does. -/
  action : HostAction
  deriving DecidableEq, Repr, Inhabited

/-- A value. -/
inductive Value where
  /-- A number. -/
  | number (value : Number)
  /-- A text. -/
  | text (value : String)
  /-- A truth value. -/
  | boolean (value : Bool)
  /-- A function written in the language. -/
  | closure (function : Closure)
  /-- A function provided from outside. -/
  | host (function : HostFunction)
  deriving Repr, Inhabited

namespace Value

/-! ### Texts of a value -/

/-- A value as text for people: texts stand for themselves. -/
def shown : Value → String
  | number x => x.shown
  | text s => s
  | boolean b => Term.booleanText b
  | closure f => "<lambda (" ++ joinWith ", " f.parameters ++ ")>"
  | host f => "<host " ++ f.name ++ ">"

/-- A value in a trace: texts stand between quotation marks. -/
def described : Value → String
  | text s => "\"" ++ s ++ "\""
  | v => v.shown

/-- The literal that denotes a value, or the fault that there is none. -/
def literal : Value → Except Fault String
  | number x => Term.renderNumber x
  | text s => .ok (Text.literal s)
  | boolean b => .ok (Term.booleanText b)
  | v => .error { cause := .noLiteral v.shown }

/-! ### Conversions -/

/-- Whether the value is a number. -/
def isNumber : Value → Bool
  | number _ => true
  | _ => false

/-- Whether the value is exactly `true`. -/
def isTrue : Value → Bool
  | boolean b => b
  | _ => false

/-- Whether the value counts as true: `false`, the zeros, `nan` and the empty text do
not. -/
def isTruthy : Value → Bool
  | number x => x.isTruthy
  | text s => s != ""
  | boolean b => b
  | closure _ => true
  | host _ => true

/-- The number that a value stands for in a comparison; functions stand for none. -/
def toNumber : Value → Number
  | number x => x
  | text s => Number.ofLooseText s
  | boolean b => if b then .one else .zero
  | closure _ => .nan
  | host _ => .nan

/-- What tells a function apart from all others; other values have no identity. -/
def identity? : Value → Option Nat
  | closure f => some f.identity
  | host f => some f.identity
  | _ => none

/-- Equality across kinds.  Values of the same kind are compared as such, a function
equals only itself, and otherwise the numbers that the values stand for are compared. -/
def looselyEqual (v w : Value) : Bool :=
  match v, w with
  | number x, number y => x.eqv y
  | text s, text t => s == t
  | boolean a, boolean b => a == b
  | v, w =>
    match v.identity?, w.identity? with
    | some i, some j => i == j
    | none, none => v.toNumber.eqv w.toNumber
    | _, _ => false

end Value

/-! ### Arguments -/

/-- Pairs each parameter with its argument.  Missing arguments are `false`, and those
without a parameter are dropped. -/
def bindArguments : List String → List Value → List (String × Value)
  | [], _ => []
  | p :: ps, [] => (p, .boolean false) :: bindArguments ps []
  | p :: ps, v :: vs => (p, v) :: bindArguments ps vs

@[simp] theorem bindArguments_nil (vs : List Value) : bindArguments [] vs = [] := rfl

/-- The parameters are bound in their order. -/
@[simp] theorem map_fst_bindArguments (ps : List String) (vs : List Value) :
    (bindArguments ps vs).map (·.1) = ps := by
  induction ps generalizing vs with
  | nil => rfl
  | cons p ps ih => cases vs <;> simp [bindArguments, ih]

/-- A parameter gets one of the arguments, or `false`. -/
theorem eq_false_or_mem_of_mem_bindArguments {ps : List String} {vs : List Value}
    {b : String × Value} (h : b ∈ bindArguments ps vs) : b.2 = .boolean false ∨ b.2 ∈ vs := by
  induction ps generalizing vs with
  | nil => simp at h
  | cons p ps ih =>
    cases vs with
    | nil =>
      rw [bindArguments, List.mem_cons] at h
      rcases h with rfl | h
      · exact .inl rfl
      · exact ih h
    | cons v vs =>
      rw [bindArguments, List.mem_cons] at h
      rcases h with rfl | h
      · exact .inr (List.mem_cons_self ..)
      · exact (ih h).imp_right (List.mem_cons_of_mem _)

/-- A function that a parameter gets is one of the arguments. -/
theorem closure_mem_of_mem_bindArguments {ps : List String} {vs : List Value}
    {b : String × Value} (h : b ∈ bindArguments ps vs) {f : Closure} (hf : b.2 = .closure f) :
    .closure f ∈ vs := by
  rcases eq_false_or_mem_of_mem_bindArguments h with hfalse | hmem
  · rw [hfalse] at hf
    cases hf
  · rwa [hf] at hmem

end Lamlet
