import Lamlet.Proofs.Eval.Discipline
import Lamlet.Proofs.Store.Sound

/-!
# Scopes over whole sessions

Programs are run one after the other against the same world, and each of them may end
with a value, with a fault or because no frame is left.  The store is sound after each of
them, and what it has it keeps.

## Main definitions

* `World.Fresh` — a world in which nothing has been run yet.
* `World.Runs` — a world is reached from another one by running programs.
* `scopeDiscipline` — sound stores, as a discipline of evaluation.
* `World.ScopesKept` — what holds of the scopes of a world and a later one.

## Main results

* `World.Runs.sound`, `World.Runs.extends` — sound stores stay sound, and only grow.
* `World.scopesKept_of_runs` — **the scopes of every world that a session reaches.**
-/

namespace Lamlet

open Store

/-! ### Sessions -/

namespace World

/-- There is only a global scope, and no function of the language is bound in it. -/
structure Fresh (w : World) : Prop where
  size : w.store.scopes.size = 1
  outer : (w.store.scope globalScope).outer = []
  opener : (w.store.scope globalScope).opener = none
  closures : ∀ name f, (name, Value.closure f) ∉ (w.store.scope globalScope).bindings

/-- Programs lead from a world to another one, whatever each of them ends with. -/
inductive Runs (w : World) : World → Prop where
  | none : Runs w w
  | run {w' : World} (tracing : Bool) (frames : Nat) (program : Term) :
      Runs w w' → Runs w (run tracing frames program globalScope w').2

theorem fresh_initial : World.initial.Fresh where
  size := rfl
  outer := rfl
  opener := rfl
  closures name f h := by
    have hall : ∀ b ∈ (World.initial.store.scope globalScope).bindings, ∀ f, b.2 ≠ .closure f := by
      simp [World.initial, Store.withHosts, Store.defineHost, Store.initial, Store.newIdentity,
        Store.define, Store.scope, globalScope, Scope.bind, Assoc.put]
    exact hall _ h f rfl

theorem Fresh.not_mem_bindings {w : World} (h : w.Fresh) (i : ScopeId) (name : String)
    (f : Closure) : (name, Value.closure f) ∉ (w.store.scope i).bindings := by
  by_cases hzero : i = globalScope
  · rw [hzero]
    exact h.closures name f
  · rw [scope_of_size_le (by rw [h.size]; exact Nat.pos_of_ne_zero hzero)]
    simp

theorem Fresh.sound {w : World} (h : w.Fresh) : w.store.Sound where
  global := by rw [h.size]; exact Nat.one_pos
  outer_global := h.outer
  opener_global := h.opener
  opened i hpos hi := by
    rw [h.size] at hi
    exact absurd hpos (Nat.not_lt_of_le (Nat.le_of_lt_succ hi))
  closures i name f hf := absurd hf (h.not_mem_bindings i name f)

end World

/-! ### The discipline -/

/-- Stores are sound, and values refer to scopes that exist. -/
def scopeDiscipline : Discipline where
  good s := s.world.store.Sound
  step s s' := s.world.store.Extends s'.world.store
  fit s p _ := p.scope < s.world.store.scopes.size
  sound s v := ∀ f, v = .closure f → f.scope < s.world.store.scopes.size
  refl s := .refl _
  trans h h' := h.trans h'
  fit_mono h hfit := Nat.lt_of_lt_of_le hfit h.size
  sound_mono h hsound f hf := Nat.lt_of_lt_of_le (hsound f hf) h.size
  part _ _ hfit := hfit
  plain s v hv f hf := by
    rw [hf] at hv
    cases hv
  emit _ hs := ⟨hs, .refl _⟩
  look hs _ _ := ⟨hs, .refl _⟩
  read hs _ hget f hf := by
    obtain ⟨j, hbound⟩ := mem_bindings_of_get? hget
    rw [hf] at hbound
    exact hs.closures j _ f hbound
  write hs hfit hv htarget := by
    have hplace := hs.target hfit htarget
    exact ⟨hs.define hplace.2 hv, extends_define _ _ _ _⟩
  make hs hfit := by
    refine ⟨hs.newIdentity, extends_newIdentity _, fun f hf => ?_⟩
    cases hf
    exact hfit
  enter {s f vs} hs hf hvs := by
    refine ⟨hs.extend (hf f rfl) hvs, extends_extend _ _ _ _, ?_⟩
    -- the body is evaluated in the scope just opened, the last one
    show s.world.store.scopes.size < _
    rw [Watched.enter, size_extend]
    exact Nat.lt_succ_self _

/-! ### What a session keeps -/

namespace World

/-- What one run keeps, in whatever scope it starts, and that its value refers to a scope
that exists. -/
theorem run_keeps_in (tracing : Bool) (frames : Nat) (program : Term) {w : World}
    (h : w.store.Sound) {scope : ScopeId} (hscope : scope < w.store.scopes.size) :
    (run tracing frames program scope w).2.store.Sound ∧
    w.store.Extends (run tracing frames program scope w).2.store ∧
    ∀ f, (run tracing frames program scope w).1 = .ok (.closure f) →
      f.scope < (run tracing frames program scope w).2.store.scopes.size := by
  -- the discipline is about observed runs, which leave the same world
  have hrun := run_eq_observe tracing frames program ⟨[], [], scope⟩ { world := w }
  have hmoves := Discipline.moves_observe (D := scopeDiscipline) (s := { world := w }) tracing
    frames program ⟨[], [], scope⟩ h hscope
  simp only at hrun
  rw [hrun]
  exact ⟨hmoves.1.1, hmoves.1.2, fun f hf => hmoves.2 _ hf f rfl⟩

/-- The same for programs, which start in the global scope. -/
theorem run_keeps (tracing : Bool) (frames : Nat) (program : Term) {w : World}
    (h : w.store.Sound) :
    (run tracing frames program globalScope w).2.store.Sound ∧
    w.store.Extends (run tracing frames program globalScope w).2.store ∧
    ∀ f, (run tracing frames program globalScope w).1 = .ok (.closure f) →
      f.scope < (run tracing frames program globalScope w).2.store.scopes.size :=
  run_keeps_in tracing frames program h h.global

theorem Runs.sound {w w' : World} (hw : w.store.Sound) (h : Runs w w') : w'.store.Sound := by
  induction h with
  | none => exact hw
  | run tracing frames program _ ih => exact (run_keeps tracing frames program ih).1

theorem Runs.extends {w w' : World} (hw : w.store.Sound) (h : Runs w w') :
    w.store.Extends w'.store := by
  induction h with
  | none => exact .refl _
  | run tracing frames program h ih =>
    exact ih.trans (run_keeps tracing frames program (h.sound hw)).2.1

/-- What holds of the scopes of a world, and of a later world `w'`. -/
structure ScopesKept (w w' : World) : Prop where
  /-- The chain of a scope follows the scopes around it, gets older at each step, and ends
  at the global scope, the only one with no scope around it. -/
  chains : ∀ i, i < w.store.scopes.size →
    (w.store.chain i).getLast? = some globalScope ∧ (w.store.chain i).Pairwise (· > ·) ∧
    (w.store.parent? i = none ↔ i = globalScope) ∧
    ∀ j, w.store.parent? i = some j → w.store.chain i = i :: w.store.chain j
  /-- Functions that are bound to a name refer to scopes that exist. -/
  closures : ∀ i name f, (name, Value.closure f) ∈ (w.store.scope i).bindings →
    f.scope < w.store.scopes.size
  /-- So do those that a program has for a value. -/
  results : ∀ tracing frames program f,
    (Lamlet.run tracing frames program globalScope w).1 = .ok (.closure f) →
    f.scope < (Lamlet.run tracing frames program globalScope w).2.store.scopes.size
  /-- A scope other than the global one was opened by a call, and binds exactly the
  parameters of the function called, now and later. -/
  opened : ∀ i, globalScope < i → i < w.store.scopes.size → ∃ f,
    (w.store.scope i).opener = some f ∧ f.scope < w.store.scopes.size ∧
    (∀ name, name ∈ (w.store.scope i).names ↔ name ∈ f.parameters) ∧
    (w'.store.scope i).opener = some f ∧
    ∀ name, name ∈ (w'.store.scope i).names ↔ name ∈ f.parameters
  /-- Global names stay. -/
  globals : ∀ name ∈ (w.store.scope globalScope).names,
    name ∈ (w'.store.scope globalScope).names

/-- **The scopes of every world that a session reaches are as they should be**, whatever
the programs before ended with, and stay so. -/
theorem scopesKept_of_runs {w₀ w w' : World} (hfresh : w₀.Fresh) (hw : Runs w₀ w)
    (hw' : Runs w w') : ScopesKept w w' := by
  have hsound : w.store.Sound := hw.sound hfresh.sound
  have hsound' : w'.store.Sound := hw'.sound hsound
  have hextends := hw'.extends hsound
  refine ⟨?_, hsound.closures, ?_, ?_, hextends.names globalScope hsound.global⟩
  · intro i hi
    have hparent := hsound.parent?_eq hi
    exact ⟨hsound.getLast?_chain hi, hsound.pairwise_chain hi, hparent.1,
      fun j hj => (hparent.2 j hj).2⟩
  · intro tracing frames program
    exact (run_keeps tracing frames program hsound).2.2
  · intro i hpos hi
    obtain ⟨f, hf, hlt, -, hnames⟩ := hsound.opened i hpos hi
    obtain ⟨f', hf', -, -, hnames'⟩ := hsound'.opened i hpos (Nat.lt_of_lt_of_le hi hextends.size)
    -- the function that opened the scope is on record, so it is still the same
    obtain rfl : f' = f := Option.some.inj (by rw [← hf', ← hf, hextends.opener i hi])
    exact ⟨f', hf, Nat.lt_trans hlt hi, hnames, hf', hnames'⟩

/-- The world after a program that calls a function with a parameter written twice, and
keeps the function that the call returns. -/
def afterCall : World :=
  (Lamlet.run false 20 (.block
    [.assign (.var "f") (.lambda ["x", "x"] (.lambda [] (.var "x"))),
      .assign (.var "g") (.call (.var "f") [.boolean true])]) globalScope .initial).2

/-- The world after another program, which runs out of frames inside a call. -/
def afterExhaustion : World :=
  (Lamlet.run false 2 (.call (.var "g") []) globalScope afterCall).2

theorem scopesKept_afterExhaustion :
    World.initial.Fresh ∧ Runs .initial afterCall ∧ Runs afterCall afterExhaustion ∧
    (Lamlet.run false 2 (.call (.var "g") []) globalScope afterCall).1
      = .error { cause := .stackExhausted } ∧
    afterExhaustion.store.scopes.size = 3 ∧ ScopesKept afterCall afterExhaustion := by
  have hcall : Runs .initial afterCall := .run _ _ _ .none
  have hexhaustion : Runs afterCall afterExhaustion := .run _ _ _ .none
  exact ⟨fresh_initial, hcall, hexhaustion, by rfl, by decide +kernel,
    scopesKept_of_runs fresh_initial hcall hexhaustion⟩

end World

end Lamlet
