import Lamlet.Proofs.Eval.Scoping

/-!
# Identities of functions

Functions are compared by their identities, not by what they do.  That is right only if no
two functions have the same identity, which depends on all that happened before: each
function gets the next identity when it is made, and from then on is only passed around.
A session is observed here as if its programs were one; the record of the observer then
tells for each identity which lambda was evaluated for it, and in which scope.

## Main definitions

* `Store.Holds`, `Store.Apart` — the values that are bound to a name, and that the
  functions among them are told apart by their identities.
* `Given`, `identityDiscipline` — the identities that functions may have, as a discipline
  of evaluation.

## Main results

* `Made.eq_of_identity` — functions on record are equal if their identities are.
* `Store.Apart.defineHost` — a host function that is added is told apart from the others.
* `World.Runs.apart` — **in every world that a session reaches, functions with the same
  identity are the same function.**
-/

namespace Lamlet

open Store

variable {program : Term}

/-- Only functions have an identity. -/
theorem Value.identity?_eq_some_iff {v : Value} {n : Nat} :
    v.identity? = some n ↔
      (∃ f, v = .closure f ∧ f.identity = n) ∨ ∃ f, v = .host f ∧ f.identity = n := by
  cases v <;> simp [Value.identity?]

/-! ### Values that a store holds -/

namespace Store

variable {s : Store}

/-- The value is bound to a name in some scope. -/
def Holds (s : Store) (v : Value) : Prop := ∃ i name, (name, v) ∈ (s.scope i).bindings

/-- The functions that a store holds are told apart by their identities. -/
structure Apart (s : Store) : Prop where
  /-- Identities that are in use are not given again. -/
  used : ∀ v n, s.Holds v → v.identity? = some n → n < s.fresh
  /-- No two functions have the same identity. -/
  unique : ∀ v u n, s.Holds v → s.Holds u → v.identity? = some n → u.identity? = some n → v = u

theorem eq_or_holds_of_define {i : ScopeId} {name : String} {v u : Value}
    (h : (s.define i name v).Holds u) : u = v ∨ s.Holds u := by
  obtain ⟨j, n, hmem⟩ := h
  rcases mem_bindings_of_define hmem with hnew | hold
  · exact .inl (Prod.mk.inj hnew).2
  · exact .inr ⟨j, n, hold⟩

theorem mem_or_holds_of_extend {i : ScopeId} {bs : List (String × Value)} {f : Option Closure}
    {u : Value} (h : (s.extend i bs f).2.Holds u) : (∃ b ∈ bs, b.2 = u) ∨ s.Holds u := by
  obtain ⟨j, n, hmem⟩ := h
  rcases mem_bindings_of_extend hmem with hnew | hold
  · exact .inl ⟨_, hnew, rfl⟩
  · exact .inr ⟨j, n, hold⟩

theorem apart_initial : Store.initial.Apart := by
  have hnone : ∀ v, ¬ Store.initial.Holds v := by
    rintro v ⟨i, name, hmem⟩
    have hempty : Store.initial.scope i = {} := by
      cases i with
      | zero => rfl
      | succ i => exact scope_of_size_le (Nat.le_add_left 1 i)
    rw [hempty] at hmem
    cases hmem
  exact ⟨fun v _ hv => absurd hv (hnone v), fun v _ _ hv => absurd hv (hnone v)⟩

/-- A host function gets an identity that no function has yet. -/
theorem Apart.defineHost (h : s.Apart) (name : String) (parameters : List String)
    (action : HostAction) : (s.defineHost name parameters action).Apart where
  used v n hv hn := by
    rcases eq_or_holds_of_define hv with rfl | hold
    · obtain rfl := Option.some.inj hn
      exact Nat.lt_succ_self _
    · exact Nat.lt_succ_of_lt (h.used v n hold hn)
  unique v u n hv hu hvn hun := by
    -- an older function has a smaller identity, so only the new one has the new identity
    rcases eq_or_holds_of_define hv with rfl | hvold
    · rcases eq_or_holds_of_define hu with rfl | huold
      · rfl
      · obtain rfl := Option.some.inj hvn
        exact absurd (h.used u _ huold hun) (Nat.lt_irrefl _)
    · rcases eq_or_holds_of_define hu with rfl | huold
      · obtain rfl := Option.some.inj hun
        exact absurd (h.used v _ hvold hvn) (Nat.lt_irrefl _)
      · exact h.unique v u n hvold huold hvn hun

end Store

theorem World.apart_initial : World.initial.store.Apart :=
  (Store.apart_initial.defineHost ..).defineHost ..

/-! ### Functions of the language -/

/-- A standpoint on record is in the scope that its calls end with. -/
theorem Stands.scope_eq {s : Watched} {q : Path} {d : Display} {i j : ScopeId}
    (hi : Stands program s ⟨q, d, i⟩) (hj : Stands program s ⟨q, d, j⟩) : i = j := by
  have hchain : s.world.store.chain i = s.world.store.chain j := hi.chain.trans hj.chain.symm
  exact (List.cons.inj hchain).1

/-- **Functions on record are equal if their identities are**: they come from the same
lambda, and were made in the same scope. -/
theorem Made.eq_of_identity {s : Watched} {f g : Closure} (hf : Made program s f)
    (hg : Made program s g) (h : f.identity = g.identity) : f = g := by
  obtain ⟨q, d, horigin, hlambda, hstands⟩ := hf
  obtain ⟨q', d', horigin', hlambda', hstands'⟩ := hg
  rw [h, horigin'] at horigin
  cases horigin
  rw [hlambda'] at hlambda
  cases f
  cases g
  cases hlambda
  cases h
  rw [Closure.mk.injEq]
  exact ⟨rfl, rfl, rfl, hstands.scope_eq hstands'⟩

/-- A program stands in the global scope, as part of a session. -/
theorem stands_program {s : Watched} (hs : s.world.store.Sound) (before after : List Term)
    (t : Term) :
    (Term.block (before ++ t :: after)).subterm? [before.length] = some t ∧
    Stands (.block (before ++ t :: after)) s ⟨[before.length], [], globalScope⟩ := by
  refine ⟨?_, rfl, .global, hs.chain_global, hs.global⟩
  show (before ++ t :: after)[before.length]? = some t
  rw [List.getElem?_append_right (Nat.le_refl _), Nat.sub_self, List.getElem?_cons_zero]

/-- A session can be observed as a whole: the programs run so far are the beginning of one
program, whatever comes later. -/
theorem World.Runs.exists_recorded {w₀ w : World} (hfresh : w₀.Fresh) (h : Runs w₀ w) :
    ∃ (before : List Term) (s : Watched), s.world = w ∧
      ∀ after, Recorded (.block (before ++ after)) s := by
  induction h with
  | none => exact ⟨[], { world := w₀ }, rfl, fun after => hfresh.recorded _⟩
  | run tracing frames program _ ih =>
    obtain ⟨before, s, rfl, hs⟩ := ih
    let p : Standpoint := ⟨[before.length], [], globalScope⟩
    refine ⟨before ++ [program], (observe tracing frames program p s).2, ?_, fun after => ?_⟩
    · rw [run_eq_observe tracing frames program p s]
    · -- the program just run is one that comes after those before
      have hrecorded := hs (program :: after)
      have hmoves := Discipline.moves_observe (D := scopingDiscipline _) tracing frames program p
        hrecorded (stands_program hrecorded.store before after program)
      rw [List.append_assoc]
      exact hmoves.1.1

/-! ### Identities in the order in which they are given -/

/-- The functions that there may be: those of the host, and functions of the language
whose identities were given from `base` on. -/
def Given (hosts : HostFunction → Prop) (base fresh : Nat) : Value → Prop
  | .closure f => base ≤ f.identity ∧ f.identity < fresh
  | .host f => hosts f
  | _ => True

theorem Given.mono {hosts : HostFunction → Prop} {base fresh fresh' : Nat} {v : Value}
    (hle : fresh ≤ fresh') (h : Given hosts base fresh v) : Given hosts base fresh' v := by
  cases v with
  | closure f => exact ⟨h.1, Nat.lt_of_lt_of_le h.2 hle⟩
  | _ => exact h

theorem given_of_plain {hosts : HostFunction → Prop} {base fresh : Nat} {v : Value}
    (h : v.identity? = none) : Given hosts base fresh v := by
  cases v with
  | closure f => cases h
  | host f => cases h
  | _ => trivial

/-- Hosts stay the same, and functions of the language get the next identity. -/
def identityDiscipline (hosts : HostFunction → Prop) (base : Nat) : Discipline where
  good s := base ≤ s.world.store.fresh ∧
    ∀ v, s.world.store.Holds v → Given hosts base s.world.store.fresh v
  step s s' := s.world.store.fresh ≤ s'.world.store.fresh
  fit _ _ _ := True
  sound s v := Given hosts base s.world.store.fresh v
  refl _ := Nat.le_refl _
  trans := Nat.le_trans
  fit_mono _ h := h
  sound_mono := Given.mono
  part _ _ h := h
  plain _ _ := given_of_plain
  emit _ hs := ⟨hs, Nat.le_refl _⟩
  look hs _ _ := ⟨hs, Nat.le_refl _⟩
  read hs _ hget := by
    obtain ⟨j, hbound⟩ := mem_bindings_of_get? hget
    exact hs.2 _ ⟨j, _, hbound⟩
  write hs _ hv _ := by
    refine ⟨⟨hs.1, fun u hu => ?_⟩, Nat.le_refl _⟩
    rcases eq_or_holds_of_define hu with rfl | hold
    · exact hv
    · exact hs.2 u hold
  make {s _ _ _} hs _ := by
    have hle : s.world.store.fresh ≤ s.world.store.fresh + 1 := Nat.le_succ _
    exact ⟨⟨Nat.le_trans hs.1 hle, fun v hv => (hs.2 v hv).mono hle⟩, hle, hs.1, Nat.lt_succ_self _⟩
  enter hs _ hvs := by
    refine ⟨⟨hs.1, fun u hu => ?_⟩, Nat.le_refl _, trivial⟩
    rcases mem_or_holds_of_extend hu with ⟨b, hb, rfl⟩ | hold
    · rcases eq_false_or_mem_of_mem_bindArguments hb with hfalse | hmem
      · rw [hfalse]
        trivial
      · exact hvs _ hmem
    · exact hs.2 u hold

/-- Over a session the hosts stay the same, and functions of the language get identities
that were not given before. -/
theorem World.Runs.given {w₀ w : World} (hfresh : w₀.Fresh) (h : Runs w₀ w) :
    w₀.store.fresh ≤ w.store.fresh ∧ ∀ v, w.store.Holds v →
      Given (fun f => w₀.store.Holds (.host f)) w₀.store.fresh w.store.fresh v := by
  induction h with
  | none =>
    refine ⟨Nat.le_refl _, fun v hv => ?_⟩
    -- no closure is bound before the first program
    cases v with
    | closure f =>
      obtain ⟨i, name, hmem⟩ := hv
      exact absurd hmem (hfresh.not_mem_bindings i name f)
    | host f => exact hv
    | _ => trivial
  | @run w' tracing frames program _ ih =>
    -- the observed run is the run, and it keeps to the discipline of identities
    have hrun := run_eq_observe tracing frames program .start { world := w' }
    have hmoves := Discipline.moves_observe (D := identityDiscipline _ _) (s := { world := w' })
      tracing frames program .start ih trivial
    simp only [Standpoint.start] at hrun
    rw [hrun]
    exact hmoves.1.1

/-! ### Sessions -/

/-- **In every world that a session reaches, functions with the same identity are the same
function**, if that is so where the session starts. -/
theorem World.Runs.apart {w₀ w : World} (hfresh : w₀.Fresh) (hapart : w₀.store.Apart)
    (h : Runs w₀ w) : w.store.Apart := by
  obtain ⟨before, s, rfl, hs⟩ := h.exists_recorded hfresh
  have hrecorded := hs []
  obtain ⟨hle, hgiven⟩ := h.given hfresh
  have hhosts : ∀ f, s.world.store.Holds (.host f) →
      w₀.store.Holds (.host f) ∧ f.identity < w₀.store.fresh := by
    intro f hf
    have hheld := hgiven _ hf
    exact ⟨hheld, hapart.used _ _ hheld rfl⟩
  refine ⟨fun v n hv hn => ?_, fun v u n hv hu hvn hun => ?_⟩
  · rcases Value.identity?_eq_some_iff.1 hn with ⟨f, rfl, rfl⟩ | ⟨f, rfl, rfl⟩
    · exact (hgiven _ hv).2
    · exact Nat.lt_of_lt_of_le (hhosts f hv).2 hle
  · rcases Value.identity?_eq_some_iff.1 hvn with ⟨f, rfl, rfl⟩ | ⟨f, rfl, rfl⟩
    · rcases Value.identity?_eq_some_iff.1 hun with ⟨g, rfl, heq⟩ | ⟨g, rfl, heq⟩
      · obtain ⟨i, name, hf⟩ := hv
        obtain ⟨j, name', hg⟩ := hu
        rw [(hrecorded.made i name f hf).eq_of_identity (hrecorded.made j name' g hg) heq.symm]
      · -- identities of the language start where those of the hosts end
        exact absurd (hhosts g hu).2 (Nat.not_lt_of_le (heq ▸ (hgiven _ hv).1))
    · rcases Value.identity?_eq_some_iff.1 hun with ⟨g, rfl, heq⟩ | ⟨g, rfl, heq⟩
      · exact absurd (hhosts f hv).2 (Nat.not_lt_of_le (heq ▸ (hgiven _ hu).1))
      · exact hapart.unique _ _ _ (hhosts f hv).1 (hhosts g hu).1 hvn hun

end Lamlet
