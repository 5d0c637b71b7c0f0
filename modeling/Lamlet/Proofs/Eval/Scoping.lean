import Lamlet.Proofs.Store.Runs

/-!
# Scoping is static

Which scope a variable is found in can be read off the program.  The scopes around an
occurrence are, from the inside out, those of one call for each lambda around it: the
call that runs the body which holds the occurrence, the call during which the function
called was made, and so on; and then the global scope.  As each of them binds just the
parameters of its lambda, a name is found in the call of the innermost lambda that has it
for a parameter, and else in the global scope or not at all.

## Main definitions

* `Calls` — the calls around an occurrence, each of a function made during the next one.
* `Stands` — the scopes around an occurrence are those calls.
* `Lookup.Static` — a variable was looked up as the program tells.
* `scopingDiscipline` — all of this, as a discipline of evaluation.

## Main results

* `Stands.lookup?_eq` — what is found from a standpoint.
* `lookups_static` — **in every run, every variable is looked up as the program tells.**
-/

namespace Lamlet

open Store

variable {program : Term}

/-! ### The calls around an occurrence -/

/-- Each scope was opened by a call of a function that comes from the lambda next to it,
and that was made inside the calls further out. -/
inductive Calls (program : Term) (origins : List (Nat × Path × Display)) (store : Store) :
    Display → Prop where
  | global : Calls program origins store []
  | inside {q : Path} {i : ScopeId} {f : Closure} {d : Display} :
      (store.scope i).opener = some f → origins.lookup f.identity = some (q, d) →
      program.subterm? q = some (.lambda f.parameters f.body) → Calls program origins store d →
      Calls program origins store ((q, i) :: d)

theorem Calls.mono {origins origins' : List (Nat × Path × Display)} {store store' : Store}
    {d : Display} (horigins : ∀ n o, origins.lookup n = some o → origins'.lookup n = some o)
    (hopener : ∀ i f, (store.scope i).opener = some f → (store'.scope i).opener = some f)
    (h : Calls program origins store d) : Calls program origins' store' d := by
  induction h with
  | global => exact .global
  | inside hf horigin hlambda _ ih =>
    exact .inside (hopener _ _ hf) (horigins _ _ horigin) hlambda ih

/-- A scope opened by a call of a lambda's function binds the parameters of the lambda. -/
theorem binds_of_opener {store : Store} (hs : store.Sound) {i : ScopeId} {f : Closure}
    (hf : (store.scope i).opener = some f) {q : Path}
    (hlambda : program.subterm? q = some (.lambda f.parameters f.body)) (name : String) :
    (store.scope i).binds name = (program.subterm? q).any (Term.hasParameter name) := by
  obtain ⟨-, -, -, hnames⟩ := hs.of_opener hf
  rw [hlambda, Option.any_some, Term.hasParameter, Bool.eq_iff_iff, Scope.binds_iff, hnames]
  simp

/-- The innermost call whose scope binds a name is that of the innermost lambda with this
parameter; failing all calls, the global scope is asked. -/
theorem Calls.find? {origins : List (Nat × Path × Display)} {store : Store} (hs : store.Sound)
    {d : Display} (h : Calls program origins store d) (name : String) :
    (d.map (·.2) ++ [globalScope]).find? (fun i => (store.scope i).binds name) =
      match (d.map (·.1)).find? (fun q => (program.subterm? q).any (Term.hasParameter name)) with
      | some q => d.lookup q
      | none => if (store.scope globalScope).binds name then some globalScope else none := by
  induction h with
  | global =>
    cases hglobal : (store.scope globalScope).binds name with
    | true => simp [hglobal]
    | false => simp [hglobal]
  | @inside q i f d hf _ hlambda _ ih =>
    have hbinds := binds_of_opener hs hf hlambda name
    rw [List.map_cons, List.map_cons, List.cons_append, List.find?_cons, List.find?_cons, hbinds]
    cases hhere : (program.subterm? q).any (Term.hasParameter name) with
    | true => simp
    | false =>
      simp only [ih]
      cases hfound : (d.map (·.1)).find?
          (fun q => (program.subterm? q).any (Term.hasParameter name)) with
      | none => rfl
      | some q' =>
        -- the lambda that is found further out is not the one of this call
        have hthere := List.find?_some hfound
        have hne : (q' == q) = false := by
          refine beq_false_of_ne fun heq => ?_
          rw [heq, hhere] at hthere
          cases hthere
        simp only [List.lookup_cons, hne]

/-! ### Standpoints -/

/-- The scopes around an occurrence are those of the calls of the lambdas around it. -/
structure Stands (program : Term) (s : Watched) (p : Standpoint) : Prop where
  around : p.display.map (·.1) = program.enclosing p.path
  calls : Calls program s.origins s.world.store p.display
  chain : s.world.store.chain p.scope = p.display.map (·.2) ++ [globalScope]
  scope : p.scope < s.world.store.scopes.size

/-- **What is found from a standpoint** can be read off the program. -/
theorem Stands.lookup?_eq {s : Watched} {p : Standpoint} (h : Stands program s p)
    (hs : s.world.store.Sound) (name : String) :
    s.world.store.lookup? p.scope name =
      match program.binder? p.path name with
      | some q => p.display.lookup q
      | none =>
        if (s.world.store.scope globalScope).binds name then some globalScope else none := by
  rw [lookup?, h.chain, h.calls.find? hs name, h.around]
  rfl

/-- A function comes from a lambda of the program, and was made at a standpoint there. -/
def Made (program : Term) (s : Watched) (f : Closure) : Prop :=
  ∃ q d, s.origins.lookup f.identity = some (q, d)
    ∧ program.subterm? q = some (.lambda f.parameters f.body)
    ∧ Stands program s ⟨q, d, f.scope⟩

/-- Scopes and origins are only ever added. -/
structure Grows (s s' : Watched) : Prop where
  store : s.world.store.Extends s'.world.store
  origins : ∀ n o, s.origins.lookup n = some o → s'.origins.lookup n = some o

theorem Grows.refl (s : Watched) : Grows s s := ⟨.refl _, fun _ _ h => h⟩

theorem Grows.trans {s s' s'' : Watched} (h : Grows s s') (h' : Grows s' s'') : Grows s s'' :=
  ⟨h.store.trans h'.store, fun n o ho => h'.origins n o (h.origins n o ho)⟩

theorem Stands.mono {s s' : Watched} (hgrows : Grows s s') {p : Standpoint}
    (h : Stands program s p) : Stands program s' p where
  around := h.around
  calls := by
    refine h.calls.mono hgrows.origins fun i f hf => ?_
    rw [hgrows.store.opener i (lt_size_of_opener hf), hf]
  chain := by rw [hgrows.store.chain h.scope, h.chain]
  scope := Nat.lt_of_lt_of_le h.scope hgrows.store.size

theorem Made.mono {s s' : Watched} (hgrows : Grows s s') {f : Closure} (h : Made program s f) :
    Made program s' f := by
  obtain ⟨q, d, horigin, hlambda, hstands⟩ := h
  exact ⟨q, d, hgrows.origins _ _ horigin, hlambda, hstands.mono hgrows⟩

theorem Made.scope_lt {s : Watched} {f : Closure} (h : Made program s f) :
    f.scope < s.world.store.scopes.size := by
  obtain ⟨q, d, -, -, hstands⟩ := h
  exact hstands.scope

/-- The parts of a term stand where the term does, except for the body of a lambda. -/
theorem Stands.part {s : Watched} {p : Standpoint} (h : Stands program s p) {t : Term}
    (ht : program.subterm? p.path = some t) (hlambda : t.isLambda = false) (i : Nat) :
    Stands program s (p.part i) where
  around := by
    show p.display.map (·.1) = program.enclosing (i :: p.path)
    rw [Term.enclosing, ht, Option.any_some, hlambda, h.around]
    rfl
  calls := h.calls
  chain := h.chain
  scope := h.scope

theorem grows_enter (s : Watched) (f : Closure) (vs : List Value) : Grows s (s.enter f vs) :=
  ⟨extends_extend _ _ _ _, fun _ _ h => h⟩

/-- The body of a function stands inside the call, and inside the calls around the lambda
that the function comes from. -/
theorem stands_body {s : Watched} {f : Closure} (hf : Made program s f) (vs : List Value) :
    program.subterm? ((s.enter f vs).body f s.world.store.scopes.size).path = some f.body ∧
    Stands program (s.enter f vs) ((s.enter f vs).body f s.world.store.scopes.size) := by
  obtain ⟨q, d, horigin, hlambda, hstands⟩ := hf
  have hlater := hstands.mono (grows_enter s f vs)
  have hbody : (s.enter f vs).body f s.world.store.scopes.size
      = ⟨0 :: q, (q, s.world.store.scopes.size) :: d, s.world.store.scopes.size⟩ := by
    show (s.body f _) = _
    rw [Watched.body, horigin]
    rfl
  have hscope := scope_extend_size s.world.store f.scope (bindArguments f.parameters vs) (some f)
  rw [hbody]
  -- the occurrence itself, the lambdas around it, the calls of them, and their scopes
  refine ⟨?_, ?_, ?_, ?_, ?_⟩
  · rw [Term.subterm?, hlambda]
    rfl
  · show q :: d.map (·.1) = program.enclosing (0 :: q)
    rw [Term.enclosing, hlambda, Option.any_some, Term.isLambda, if_pos rfl, ← hstands.around]
  · refine .inside ?_ horigin hlambda hlater.calls
    rw [Watched.enter, hscope, Scope.opener_bindAll]
  · show (s.enter f vs).world.store.chain s.world.store.scopes.size
      = s.world.store.scopes.size :: (d.map (·.2) ++ [globalScope])
    rw [Store.chain, Watched.enter, hscope, Scope.outer_bindAll, hstands.chain]
  · show s.world.store.scopes.size < (s.enter f vs).world.store.scopes.size
    rw [Watched.enter, size_extend]
    exact Nat.lt_succ_self _

/-! ### Lookups -/

/-- A variable was looked up as the program tells. -/
structure Lookup.Static (program : Term) (origins : List (Nat × Path × Display)) (l : Lookup) :
    Prop where
  /-- The occurrence is the variable, or assigns it. -/
  occurs : ∃ t, program.subterm? l.standpoint.path = some t ∧ t.mentions l.name
  /-- There is one call for each lambda around the occurrence. -/
  around : l.standpoint.display.map (·.1) = program.enclosing l.standpoint.path
  /-- Each is a call of a function from this lambda, made inside the calls further out. -/
  calls : Calls program origins l.store l.standpoint.display
  /-- Their scopes are the scopes around the occurrence, up to the global one. -/
  chain : l.store.chain l.standpoint.scope
    = l.standpoint.display.map (·.2) ++ [globalScope]
  /-- A parameter of a lambda around is found in the call of the innermost such lambda. -/
  bound : ∀ q, program.binder? l.standpoint.path l.name = some q →
    ∃ i, l.standpoint.display.lookup q = some i ∧ l.store.lookup? l.standpoint.scope l.name = some i
  /-- So it is defined, for reading as well as for assigning. -/
  defined : program.binder? l.standpoint.path l.name ≠ none → ∀ w, w.store = l.store →
    (∃ v, Run.readVariable l.standpoint.scope l.name w = .ok v w) ∧
    ∀ v, ∃ w', Run.assignVariable l.standpoint.scope l.name v w = .ok () w'
  /-- Any other name is found in the global scope, or not at all. -/
  free : program.binder? l.standpoint.path l.name = none →
    l.store.lookup? l.standpoint.scope l.name = some globalScope ∨
    l.store.lookup? l.standpoint.scope l.name = none

/-- A variable that is found can be read and assigned. -/
theorem defined_of_lookup? {i j : ScopeId} {name : String} {w : World}
    (h : w.store.lookup? i name = some j) :
    (∃ v, Run.readVariable i name w = .ok v w) ∧
    ∀ v, ∃ w', Run.assignVariable i name v w = .ok () w' := by
  obtain ⟨-, hbinds⟩ := mem_chain_of_lookup? h
  obtain ⟨value, hvalue⟩ := Option.isSome_iff_exists.1 hbinds
  have hget : w.store.get? i name = some value := by rw [get?, h]; exact hvalue
  have htarget : w.store.target? i name = some j := by rw [target?, h]
  refine ⟨⟨value, by rw [Run.readVariable_apply, hget]⟩, fun v => ?_⟩
  exact ⟨_, by rw [Run.assignVariable_apply, htarget]⟩

theorem Lookup.Static.of_stands {s : Watched} (hs : s.world.store.Sound) {p : Standpoint}
    (h : Stands program s p) {t : Term} (ht : program.subterm? p.path = some t) {name : String}
    (hname : t.mentions name) : Lookup.Static program s.origins ⟨name, p, s.world.store⟩ := by
  have hfound := h.lookup?_eq hs name
  -- a lambda around the occurrence that binds the name has a scope on the chain, which is where
  -- the name is found
  have hbound : ∀ q, program.binder? p.path name = some q →
      ∃ i, p.display.lookup q = some i ∧ s.world.store.lookup? p.scope name = some i := by
    intro q hq
    rw [hq] at hfound
    have hmem : q ∈ p.display.map (·.1) := by
      rw [h.around]
      exact List.mem_of_find?_eq_some hq
    obtain ⟨entry, hentry, rfl⟩ := List.mem_map.1 hmem
    have hsome : (p.display.lookup entry.1).isSome = true :=
      List.lookup_isSome_iff.2 ⟨entry, hentry, beq_self_eq_true _⟩
    obtain ⟨i, hi⟩ := Option.isSome_iff_exists.1 hsome
    exact ⟨i, hi, by rw [hfound]; exact hi⟩
  refine ⟨⟨t, ht, hname⟩, h.around, h.calls, h.chain, hbound, fun hne w hw => ?_, fun hnone => ?_⟩
  · obtain ⟨q, hq⟩ := Option.ne_none_iff_exists'.1 hne
    obtain ⟨i, -, hi⟩ := hbound q hq
    exact defined_of_lookup? (by rw [hw]; exact hi)
  · -- no lambda around the occurrence binds the name, so only the global scope can
    rw [hnone] at hfound
    cases hglobal : (s.world.store.scope globalScope).binds name with
    | true => exact .inl (by rw [hfound, hglobal]; rfl)
    | false => exact .inr (by rw [hfound, hglobal]; rfl)

theorem Lookup.Static.mono {origins origins' : List (Nat × Path × Display)}
    (horigins : ∀ n o, origins.lookup n = some o → origins'.lookup n = some o) {l : Lookup}
    (h : l.Static program origins) : l.Static program origins' :=
  { h with calls := h.calls.mono horigins fun _ _ hf => hf }

/-! ### The discipline -/

/-- The record of an observer is in order. -/
structure Recorded (program : Term) (s : Watched) : Prop where
  store : s.world.store.Sound
  /-- Identities that are on record are not given again. -/
  fresh : ∀ n o, s.origins.lookup n = some o → n < s.world.store.fresh
  /-- Functions that are bound to a name come from the program. -/
  made : ∀ i name f, (name, Value.closure f) ∈ (s.world.store.scope i).bindings →
    Made program s f
  /-- All variables so far were looked up as the program tells. -/
  lookups : ∀ l ∈ s.lookups, l.Static program s.origins

theorem grows_make {s : Watched} (hs : Recorded program s) (p : Standpoint) :
    Grows s (s.make p) := by
  refine ⟨extends_newIdentity _, fun n o ho => ?_⟩
  -- the identity of the new function is above all that are on record
  have hne : (n == s.world.store.fresh) = false := beq_false_of_ne (Nat.ne_of_lt (hs.fresh n o ho))
  show ((s.world.store.fresh, p.path, p.display) :: s.origins).lookup n = some o
  rw [List.lookup_cons, hne]
  exact ho

theorem Recorded.make {s : Watched} (hs : Recorded program s) (p : Standpoint) :
    Recorded program (s.make p) where
  store := hs.store.newIdentity
  fresh n o ho := by
    have hlookup : ((s.world.store.fresh, p.path, p.display) :: s.origins).lookup n = some o := ho
    rw [List.lookup_cons] at hlookup
    split at hlookup
    · next heq =>
      rw [eq_of_beq heq]
      exact Nat.lt_succ_self _
    · exact Nat.lt_succ_of_lt (hs.fresh n o hlookup)
  made i name f hf := (hs.made i name f hf).mono (grows_make hs p)
  lookups l hl := (hs.lookups l hl).mono (grows_make hs p).origins

theorem Recorded.define {s : Watched} (hs : Recorded program s) {i : ScopeId} {name : String}
    {v : Value} (hname : globalScope < i → name ∈ (s.world.store.scope i).names)
    (hv : ∀ f, v = .closure f → Made program s f) : Recorded program (s.define i name v) := by
  have hgrows : Grows s (s.define i name v) := ⟨extends_define _ _ _ _, fun _ _ h => h⟩
  have hsound := hs.store.define hname fun f hf => (hv f hf).scope_lt
  refine ⟨hsound, hs.fresh, fun j n f hf => Made.mono hgrows ?_, hs.lookups⟩
  rcases mem_bindings_of_define hf with hnew | hold
  · exact hv f (Prod.mk.inj hnew).2.symm
  · exact hs.made j n f hold

theorem Recorded.enter {s : Watched} (hs : Recorded program s) {f : Closure}
    (hf : Made program s f) {vs : List Value}
    (hvs : ∀ v ∈ vs, ∀ g, v = .closure g → Made program s g) :
    Recorded program (s.enter f vs) := by
  have hsound := hs.store.extend hf.scope_lt fun v hv g hg => (hvs v hv g hg).scope_lt
  refine ⟨hsound, hs.fresh, fun i name g hg => Made.mono (grows_enter s f vs) ?_, hs.lookups⟩
  rcases mem_bindings_of_extend hg with hnew | hold
  · exact hvs _ (closure_mem_of_mem_bindArguments hnew rfl) g rfl
  · exact hs.made i name g hold

/-- The record is in order, and values come from the program. -/
def scopingDiscipline (program : Term) : Discipline where
  good := Recorded program
  step := Grows
  fit s p t := program.subterm? p.path = some t ∧ Stands program s p
  sound s v := ∀ f, v = .closure f → Made program s f
  refl := .refl
  trans := .trans
  fit_mono h hfit := ⟨hfit.1, hfit.2.mono h⟩
  sound_mono h hsound f hf := (hsound f hf).mono h
  part {s p t u i} hlambda hpart hfit := by
    refine ⟨?_, hfit.2.part hfit.1 hlambda i⟩
    show (program.subterm? p.path).bind (fun t => t.parts[i]?) = some u
    rw [hfit.1]
    exact hpart
  plain s v hv f hf := by
    rw [hf] at hv
    cases hv
  emit {s} event hs := by
    have hgrows : Grows s (s.emit event) := ⟨.refl _, fun _ _ h => h⟩
    exact ⟨⟨hs.store, hs.fresh, fun i n f hf => (hs.made i n f hf).mono hgrows, hs.lookups⟩, hgrows⟩
  look {s p t name} hs hfit hname := by
    have hgrows : Grows s (s.look p name) := ⟨.refl _, fun _ _ h => h⟩
    refine ⟨⟨hs.store, hs.fresh, fun i n f hf => (hs.made i n f hf).mono hgrows,
      fun l hl => ?_⟩, hgrows⟩
    rcases List.mem_cons.1 hl with rfl | hl
    · exact .of_stands hs.store hfit.2 hfit.1 hname
    · exact hs.lookups l hl
  read hs _ hget f hf := by
    obtain ⟨j, hbound⟩ := mem_bindings_of_get? hget
    rw [hf] at hbound
    exact hs.made j _ f hbound
  write hs hfit hv htarget := by
    obtain ⟨-, hname⟩ := hs.store.target hfit.2.scope htarget
    exact ⟨hs.define hname hv, ⟨extends_define _ _ _ _, fun _ _ h => h⟩⟩
  make {s p parameters body} hs hfit := by
    refine ⟨hs.make p, grows_make hs p, fun f hf => ?_⟩
    cases hf
    exact ⟨p.path, p.display, List.lookup_cons_self, hfit.1, hfit.2.mono (grows_make hs p)⟩
  enter {s f vs} hs hf hvs :=
    ⟨hs.enter (hf f rfl) hvs, grows_enter s f vs, stands_body (hf f rfl) vs⟩

/-! ### Runs -/

theorem World.Fresh.recorded {w : World} (h : w.Fresh) (program : Term) :
    Recorded program { world := w } where
  store := h.sound
  fresh _ _ ho := by cases ho
  made i name f hf := absurd hf (h.not_mem_bindings i name f)
  lookups _ hl := by cases hl

/-- A program starts in the global scope, with no call around it. -/
theorem World.Fresh.stands_start {w : World} (h : w.Fresh) (program : Term) :
    Stands program { world := w } .start where
  around := rfl
  calls := .global
  chain := h.sound.chain_global
  scope := h.sound.global

/-- **Scoping is static.**  In every run of a program in a fresh world, however long it is
and however it ends, every variable is looked up as the program tells: the parameters of
the lambdas around an occurrence in the calls around it, and all other names in the
global scope.  The observed run is the run itself. -/
theorem lookups_static (tracing : Bool) (frames : Nat) (program : Term) {w : World}
    (hw : w.Fresh) :
    run tracing frames program globalScope w =
      ((observe tracing frames program .start { world := w }).1,
        (observe tracing frames program .start { world := w }).2.world) ∧
    ∀ l ∈ (observe tracing frames program .start { world := w }).2.lookups,
      l.Static program (observe tracing frames program .start { world := w }).2.origins := by
  refine ⟨run_eq_observe tracing frames program .start { world := w }, ?_⟩
  have hmoves := Discipline.moves_observe (D := scopingDiscipline program) tracing frames program
    .start (hw.recorded program) ⟨rfl, hw.stands_start program⟩
  exact hmoves.1.1.lookups

/-- A program in which a function outlives the call that its variable belongs to, and is
called where a variable of the same name would be found. -/
def escapingSample : Term :=
  .block
    [.assign (.var "f") (.lambda ["x"] (.lambda ["y"] (.var "x"))),
      .call (.lambda ["x", "g"] (.call (.var "g") [.var "x"]))
        [.boolean false, .call (.var "f") [.boolean true]]]

theorem lookups_static_escapingSample :
    World.initial.Fresh ∧
    (observe false 20 escapingSample .start { world := .initial }).2.lookups.map
      (fun l => (l.name, l.store.lookup? l.standpoint.scope l.name))
      = [("x", some 1), ("x", some 2), ("g", some 2), ("f", some 0), ("f", none)] ∧
    run false 20 escapingSample globalScope .initial =
      ((observe false 20 escapingSample .start { world := .initial }).1,
        (observe false 20 escapingSample .start { world := .initial }).2.world) ∧
    ∀ l ∈ (observe false 20 escapingSample .start { world := .initial }).2.lookups,
      l.Static escapingSample
        (observe false 20 escapingSample .start { world := .initial }).2.origins :=
  ⟨World.fresh_initial, by decide +kernel, lookups_static false 20 _ World.fresh_initial⟩

end Lamlet
