import Lamlet.Proofs.Eval.Discipline
import Lamlet.Proofs.Store.Reach

/-!
# What assignments and definitions change

Scopes form a forest under the global scope.  An assignment changes the innermost scope
around the place of assignment that binds the name; a definition changes the scope that it
names.  Either way one binding changes, and the change is seen from exactly those scopes
from which no nearer scope binds the name.

## Main definitions

* `Store.Forest` — the stores that the operations make from one global scope.
* `Store.Inside` — a scope lies around another one, or is that one.
* `Store.Meets` — going out from a scope, another one comes before any that binds a name.
* `Store.Innermost`, `Store.Unbound` — the innermost scope that binds a name, and that there
  is none.
* `Store.Rebound` — one binding was changed, and what is seen of the change.
* `World.ExactEffects` — what an assignment and a definition do.

## Main results

* `Store.Linked.lookup?_eq_some_iff`, `Store.Linked.lookup?_eq_none_iff` — a name is looked
  up from the inside out.
* `Store.Linked.rebound_define` — **a definition changes one binding**, and who sees it.
* `World.exactEffects_of_forest` — **what an assignment and a definition do**, from any scope
  of any forest.
-/

namespace Lamlet

/-! ### Names of a scope -/

/-- The keys after a `put`: an old one keeps its place, a new one goes to the end. -/
theorem Assoc.map_fst_put {α β : Type} [DecidableEq α] (key : α) (value : β)
    (l : List (α × β)) :
    (put key value l).map (·.1)
      = if key ∈ l.map (·.1) then l.map (·.1) else l.map (·.1) ++ [key] := by
  induction l with
  | nil => simp [put]
  | cons entry rest ih =>
    obtain ⟨k, v⟩ := entry
    by_cases hk : k = key
    · subst hk
      simp [put]
    · have hmem : key ∈ (k, v).1 :: rest.map (·.1) ↔ key ∈ rest.map (·.1) := by
        rw [List.mem_cons]
        exact or_iff_right (Ne.symm hk)
      simp only [put, hk, if_false, List.map_cons, ih, hmem]
      split
      · rfl
      · rfl

namespace Store

variable {s : Store} {x y : String} {v : Value} {i j k p : ScopeId}

/-! ### Forests of scopes -/

/-- The stores that come from an empty global scope by opening scopes, assigning, defining
and making functions. -/
inductive Forest : Store → Prop where
  | initial : Forest .initial
  | extend {s : Store} {i : ScopeId} (bindings : List (String × Value))
      (opener : Option Closure) :
      Forest s → i < s.scopes.size → Forest (s.extend i bindings opener).2
  | assign {s s' : Store} {i : ScopeId} {x : String} {v : Value} :
      Forest s → i < s.scopes.size → s.assign? i x v = some s' → Forest s'
  | define {s : Store} {i : ScopeId} (x : String) (v : Value) :
      Forest s → i < s.scopes.size → Forest (s.define i x v)
  | newIdentity {s : Store} : Forest s → Forest s.newIdentity.2

/-- The scope `j` is the scope `i` or lies around it. -/
inductive Inside (s : Store) (j : ScopeId) : ScopeId → Prop where
  | self : Inside s j j
  | outward {i p : ScopeId} : s.parent? i = some p → Inside s j p → Inside s j i

/-- Going out from the scope `i`, the scope `j` is reached, and no scope before it binds the
name. -/
inductive Meets (s : Store) (x : String) (j : ScopeId) : ScopeId → Prop where
  | here : Meets s x j j
  | outward {i p : ScopeId} :
      x ∉ (s.scope i).names → s.parent? i = some p → Meets s x j p → Meets s x j i

/-- The scope `j` is the innermost one around `i` that binds the name. -/
def Innermost (s : Store) (x : String) (i j : ScopeId) : Prop :=
  s.Meets x j i ∧ x ∈ (s.scope j).names

/-- Neither the scope `i` nor a scope around it binds the name. -/
def Unbound (s : Store) (x : String) (i : ScopeId) : Prop :=
  ∀ j, s.Inside j i → x ∉ (s.scope j).names

/-! ### Links -/

theorem linked_initial : Store.initial.Linked where
  global := Nat.one_pos
  outer_global := rfl
  inside _ hpos hi := absurd hpos (Nat.not_lt_of_le (Nat.le_of_lt_succ hi))

theorem parent?_define (s : Store) (i k : ScopeId) (x : String) (v : Value) :
    (s.define i x v).parent? k = s.parent? k := by
  rw [parent?, outer_define, parent?]

namespace Linked

theorem define (h : s.Linked) (i : ScopeId) (x : String) (v : Value) :
    (s.define i x v).Linked where
  global := by
    rw [size_define]
    exact h.global
  outer_global := by
    rw [outer_define]
    exact h.outer_global
  inside k hpos hk := by
    rw [size_define] at hk
    obtain ⟨p, hlt, houter⟩ := h.inside k hpos hk
    exact ⟨p, hlt, by rw [outer_define, houter, chain_define]⟩

theorem extend (h : s.Linked) (hi : i < s.scopes.size) (bindings : List (String × Value))
    (opener : Option Closure) : (s.extend i bindings opener).2.Linked where
  global := by
    rw [size_extend]
    exact Nat.lt_succ_of_lt h.global
  outer_global := by
    rw [scope_extend_of_lt h.global]
    exact h.outer_global
  inside k hpos hk := by
    rw [size_extend] at hk
    by_cases hold : k < s.scopes.size
    · obtain ⟨p, hlt, houter⟩ := h.inside k hpos hold
      refine ⟨p, hlt, ?_⟩
      rw [scope_extend_of_lt hold, houter, chain_extend_of_lt (Nat.lt_trans hlt hold)]
    · -- the new scope has the given one around it
      obtain rfl : k = s.scopes.size := Nat.eq_of_lt_succ_of_not_lt hk hold
      refine ⟨i, hi, ?_⟩
      rw [scope_extend_size, Scope.outer_bindAll, chain_extend_of_lt hi]

/-- The scope around another one is older. -/
theorem lt_of_parent? (h : s.Linked) (hp : s.parent? i = some p) : p < i := by
  by_cases hi : i < s.scopes.size
  · exact ((h.parent?_eq hi).2 p hp).1
  · rw [parent?, scope_of_size_le (Nat.le_of_not_lt hi)] at hp
    cases hp

/-- A chain starts with its scope, and goes on with the chain of the scope around it. -/
theorem chain_eq (h : s.Linked) (i : ScopeId) :
    s.chain i = i :: (s.parent? i).elim [] s.chain := by
  cases hp : s.parent? i with
  | none =>
    rw [parent?, List.head?_eq_none_iff] at hp
    rw [chain, hp, Option.elim_none]
  | some p =>
    by_cases hi : i < s.scopes.size
    · exact ((h.parent?_eq hi).2 p hp).2
    · rw [parent?, scope_of_size_le (Nat.le_of_not_lt hi)] at hp
      cases hp

/-- A property holds of all scopes if it passes from a scope to those right inside it. -/
theorem outward_induction (h : s.Linked) {motive : ScopeId → Prop}
    (step : ∀ i, (∀ p, s.parent? i = some p → motive p) → motive i) (i : ScopeId) :
    motive i := by
  induction i using Nat.strongRecOn with
  | ind i ih => exact step i fun p hp => ih p (h.lt_of_parent? hp)

/-! ### Names are looked up from the inside out -/

/-- One step of a search: the scope itself, or else the scope around it. -/
theorem lookup?_eq (h : s.Linked) (i : ScopeId) (x : String) :
    s.lookup? i x
      = if x ∈ (s.scope i).names then some i else (s.parent? i).bind (s.lookup? · x) := by
  rw [lookup?, h.chain_eq, List.find?_cons]
  cases hbinds : (s.scope i).binds x with
  | true => rw [if_pos (Scope.binds_iff.1 hbinds)]
  | false =>
    have hnames : x ∉ (s.scope i).names := by
      intro hx
      rw [Scope.binds_iff.2 hx] at hbinds
      cases hbinds
    rw [if_neg hnames]
    cases s.parent? i with
    | none => rfl
    | some p => rfl

/-- What is found is the innermost scope that binds the name. -/
theorem lookup?_eq_some_iff (h : s.Linked) : s.lookup? i x = some j ↔ s.Innermost x i j := by
  constructor
  · intro hfound
    -- the search takes the steps of the walk outward
    induction i using h.outward_induction with
    | step i ih =>
      rw [h.lookup?_eq] at hfound
      split at hfound
      · next hx =>
        obtain rfl := Option.some.inj hfound
        exact ⟨.here, hx⟩
      · next hx =>
        obtain ⟨p, hp, hfound⟩ := Option.bind_eq_some_iff.1 hfound
        obtain ⟨hmeets, hj⟩ := ih p hp hfound
        exact ⟨.outward hx hp hmeets, hj⟩
  · rintro ⟨hmeets, hj⟩
    induction hmeets with
    | here => rw [h.lookup?_eq, if_pos hj]
    | outward hx hp _ ih => rw [h.lookup?_eq, if_neg hx, hp, Option.bind_some, ih]

/-- Nothing is found exactly if the name is bound nowhere around. -/
theorem lookup?_eq_none_iff (h : s.Linked) : s.lookup? i x = none ↔ s.Unbound x i := by
  constructor
  · intro hnone j hj
    induction hj with
    | self =>
      intro hx
      rw [h.lookup?_eq, if_pos hx] at hnone
      cases hnone
    | @outward i p hp _ ih =>
      apply ih
      rw [h.lookup?_eq] at hnone
      split at hnone
      · cases hnone
      · rwa [hp, Option.bind_some] at hnone
  · intro hunbound
    induction i using h.outward_induction with
    | step i ih =>
      rw [h.lookup?_eq, if_neg (hunbound i .self)]
      cases hp : s.parent? i with
      | none => rfl
      | some p => exact ih p hp fun j hj => hunbound j (.outward hp hj)

/-- Only the global scope has no scope around it. -/
theorem isGlobal_iff (h : s.Linked) (hi : i < s.scopes.size) :
    (s.scope i).isGlobal = true ↔ i = globalScope := by
  rw [← (h.parent?_eq hi).1, parent?, Scope.isGlobal, List.isEmpty_iff, List.head?_eq_none_iff]

theorem not_unbound_of_lookup? (h : s.Linked) (hfound : s.lookup? i x = some j) :
    ¬ s.Unbound x i := by
  intro hunbound
  rw [h.lookup?_eq_none_iff.2 hunbound] at hfound
  cases hfound

/-- Where an assignment goes. -/
theorem target?_eq_some_iff (h : s.Linked) (hi : i < s.scopes.size) :
    s.target? i x = some j
      ↔ s.Innermost x i j ∨ s.Unbound x i ∧ i = globalScope ∧ j = globalScope := by
  unfold target?
  rw [← h.lookup?_eq_some_iff]
  cases hfound : s.lookup? i x with
  | some k =>
    exact ⟨.inl, fun hj => hj.resolve_right fun hnone => h.not_unbound_of_lookup? hfound hnone.1⟩
  | none =>
    -- a name that is bound nowhere can only be made in the global scope
    have hunbound := h.lookup?_eq_none_iff.1 hfound
    simp only [h.isGlobal_iff hi, Option.ite_none_right_eq_some, Option.some.injEq, reduceCtorEq,
      false_or]
    constructor
    · rintro ⟨hglobal, rfl⟩
      exact ⟨hunbound, hglobal, hglobal⟩
    · rintro ⟨-, rfl, rfl⟩
      exact ⟨rfl, rfl⟩

/-- An assignment goes nowhere if it is made inside the global scope and the name is bound
nowhere around. -/
theorem target?_eq_none_iff (h : s.Linked) (hi : i < s.scopes.size) :
    s.target? i x = none ↔ i ≠ globalScope ∧ s.Unbound x i := by
  unfold target?
  cases hfound : s.lookup? i x with
  | some j =>
    constructor
    · intro hnone
      cases hnone
    · rintro ⟨-, hunbound⟩
      exact absurd hunbound (h.not_unbound_of_lookup? hfound)
  | none =>
    have hunbound := h.lookup?_eq_none_iff.1 hfound
    simp only [ite_eq_right_iff, reduceCtorEq, imp_false, h.isGlobal_iff hi]
    exact (and_iff_left hunbound).symm

/-- What is met on the way out is not younger. -/
theorem le_of_meets (h : s.Linked) (hj : s.Meets x j i) : j ≤ i := by
  induction hj with
  | here => exact Nat.le_refl j
  | outward _ hp _ ih => exact Nat.le_trans ih (Nat.le_of_lt (h.lt_of_parent? hp))

end Linked

theorem Forest.linked (h : s.Forest) : s.Linked := by
  induction h with
  | initial => exact linked_initial
  | extend bindings opener _ hi ih => exact ih.extend hi bindings opener
  | @assign s s' i x v _ hi hs' ih =>
    obtain ⟨j, -, rfl⟩ := Option.map_eq_some_iff.1 hs'
    exact ih.define j x v
  | define x v _ _ ih => exact ih.define _ x v
  | newIdentity _ ih => exact ⟨ih.global, ih.outer_global, ih.inside⟩

/-! ### One binding is changed -/

/-- The store `s'` is `s` with the name `x` bound to `v` in the scope `j`, and nothing else
changed. -/
structure Rebound (s s' : Store) (j : ScopeId) (x : String) (v : Value) : Prop where
  /-- There are as many scopes as before. -/
  size : s'.scopes.size = s.scopes.size
  /-- Each lies where it did. -/
  parents : ∀ k, s'.parent? k = s.parent? k
  /-- The other scopes are as they were. -/
  others : ∀ k, k ≠ j → s'.scope k = s.scope k
  /-- The name has its new value in the scope. -/
  bound : (s'.scope j).get? x = some v
  /-- The other names of the scope have the values they had. -/
  kept : ∀ y, y ≠ x → (s'.scope j).get? y = (s.scope j).get? y
  /-- A name that was bound in the scope keeps its place, a new one goes to the end. -/
  names : (s'.scope j).names
    = if x ∈ (s.scope j).names then (s.scope j).names else (s.scope j).names ++ [x]
  /-- The scopes whose innermost scope with the name is the changed one are those from which
  the changed one is met before any other scope with the name. -/
  innermost_iff : ∀ k, s'.Innermost x k j ↔ s.Meets x j k
  /-- From these scopes the name has its new value. -/
  seen : ∀ k, s'.Innermost x k j → s'.get? k x = some v
  /-- What any other scope sees, and what is seen of other names, is as before. -/
  unseen : ∀ k y, ¬ (y = x ∧ s'.Innermost x k j) → s'.get? k y = s.get? k y

theorem scope_define_of_ne (hne : k ≠ j) : (s.define j x v).scope k = s.scope k := by
  rw [scope_define, if_neg fun h => hne h.1.symm]

theorem scope_define_self (hj : j < s.scopes.size) :
    (s.define j x v).scope j = (s.scope j).bind x v := by
  rw [scope_define, if_pos ⟨rfl, hj⟩]

theorem mem_names_define_of_ne (hne : y ≠ x) :
    y ∈ ((s.define j x v).scope k).names ↔ y ∈ (s.scope k).names := by
  rw [scope_define]
  split
  · rw [Scope.mem_names_bind]
    exact or_iff_right hne
  · exact Iff.rfl

theorem get?_scope_define_of_ne (hne : y ≠ x) :
    ((s.define j x v).scope k).get? y = (s.scope k).get? y := by
  rw [scope_define]
  split
  · rw [Scope.get?_bind, if_neg hne]
  · rfl

/-- A scope that binds the name now is met where it was met before. -/
theorem innermost_define_iff (hj : j < s.scopes.size) (k : ScopeId) :
    (s.define j x v).Innermost x k j ↔ s.Meets x j k := by
  have hnames : x ∈ ((s.define j x v).scope j).names := by
    rw [scope_define_self hj]
    exact Scope.mem_names_bind.2 (.inl rfl)
  rw [Innermost, and_iff_left hnames]
  constructor
  · intro hmeets
    induction hmeets with
    | here => exact .here
    | @outward i p hx hp _ ih =>
      -- a scope that is passed does not bind the name, so it is not the one defined in
      have hne : i ≠ j := by
        rintro rfl
        exact hx hnames
      rw [scope_define_of_ne hne] at hx
      rw [parent?_define] at hp
      exact .outward hx hp ih
  · intro hmeets
    induction hmeets with
    | here => exact .here
    | @outward i p hx hp _ ih =>
      by_cases hne : i = j
      · rw [hne]
        exact .here
      · refine .outward ?_ (by rw [parent?_define, hp]) ih
        rwa [scope_define_of_ne hne]

namespace Linked

theorem lookup?_define_of_ne (h : s.Linked) (hne : y ≠ x) (k : ScopeId) :
    (s.define j x v).lookup? k y = s.lookup? k y := by
  have h' := h.define j x v
  induction k using h.outward_induction with
  | step k ih =>
    rw [h'.lookup?_eq, h.lookup?_eq]
    simp only [mem_names_define_of_ne hne, parent?_define]
    split
    · rfl
    · cases hp : s.parent? k with
      | none => rfl
      | some p => exact ih p hp

/-- Where the scope is not met, the name is found where it was found before. -/
theorem lookup?_define_of_not_meets (h : s.Linked) (hk : ¬ s.Meets x j k) :
    (s.define j x v).lookup? k x = s.lookup? k x := by
  have h' := h.define j x v
  induction k using h.outward_induction with
  | step k ih =>
    -- the changed scope is not on the way, so the names on the way stay
    have hne : k ≠ j := by
      rintro rfl
      exact hk .here
    rw [h'.lookup?_eq, h.lookup?_eq, scope_define_of_ne hne, parent?_define]
    split
    · rfl
    · next hx =>
      cases hp : s.parent? k with
      | none => rfl
      | some p => exact ih p hp fun hmeets => hk (.outward hx hp hmeets)

/-- **A definition changes one binding**, and it is seen where no nearer scope binds the name.
All other bindings stay, and so do the scopes and what is around them; the value is found from
just the scopes whose walk outward meets the changed one before any other that binds the name. -/
theorem rebound_define (h : s.Linked) (hj : j < s.scopes.size) (x : String) (v : Value) :
    Rebound s (s.define j x v) j x v where
  size := size_define s j x v
  parents k := parent?_define s j k x v
  others k hne := scope_define_of_ne hne
  bound := by rw [scope_define_self hj, Scope.get?_bind, if_pos rfl]
  kept y hne := get?_scope_define_of_ne hne
  names := by
    rw [scope_define_self hj]
    exact Assoc.map_fst_put x v (s.scope j).bindings
  innermost_iff k := innermost_define_iff hj k
  seen k hk := by
    rw [get?, (h.define j x v).lookup?_eq_some_iff.2 hk, Option.bind_some, scope_define_self hj,
      Scope.get?_bind, if_pos rfl]
  unseen k y hunseen := by
    by_cases hne : y = x
    · subst hne
      have hmeets : ¬ s.Meets y j k := by
        intro hmeets
        exact hunseen ⟨rfl, (innermost_define_iff hj k).2 hmeets⟩
      rw [get?, get?, h.lookup?_define_of_not_meets hmeets]
      cases hfound : s.lookup? k y with
      | none => rfl
      | some m =>
        -- the scope where the name is found is met, so it is another one
        have hm : m ≠ j := by
          rintro rfl
          exact hmeets (h.lookup?_eq_some_iff.1 hfound).1
        rw [Option.bind_some, Option.bind_some, scope_define_of_ne hm]
    · rw [get?, get?, h.lookup?_define_of_ne hne]
      cases s.lookup? k y with
      | none => rfl
      | some m => exact get?_scope_define_of_ne hne

end Linked

end Store

/-! ### Assignments and definitions -/

namespace World

open Store

/-- What an assignment to the name `x` from the scope `i`, and a definition of it there, do. -/
structure ExactEffects (w : World) (i : ScopeId) (x : String) (v : Value) : Prop where
  /-- The assignment fails exactly if it is made inside the global scope and the name is bound
  nowhere around. -/
  fails_iff : w.store.assign? i x v = none ↔ i ≠ globalScope ∧ w.store.Unbound x i
  /-- Then the program stops with a fault that names the variable, in the world as it was. -/
  failed : w.store.assign? i x v = none →
    Run.assignVariable i x v w = .error (.fault { cause := .undefinedVariable x }) w
  /-- Otherwise one binding changes: the innermost one of the name, or a new global one.  The
  name has its new value where it was assigned. -/
  assigned : ∀ s', w.store.assign? i x v = some s' →
    Run.assignVariable i x v w = .ok () { w with store := s' } ∧ s'.get? i x = some v ∧
    ∃ j, (w.store.Innermost x i j ∨ w.store.Unbound x i ∧ i = globalScope ∧ j = globalScope) ∧
      Rebound w.store s' j x v
  /-- The definition changes the binding in the scope itself. -/
  defined : Rebound w.store (w.store.define i x v) i x v

/-- **What an assignment and a definition do**, from any scope of any forest. -/
theorem exactEffects_of_forest {w : World} (hw : w.store.Forest) {i : ScopeId}
    (hi : i < w.store.scopes.size) (x : String) (v : Value) : ExactEffects w i x v := by
  have hlinked := hw.linked
  refine ⟨?_, ?_, ?_, hlinked.rebound_define hi x v⟩
  · rw [assign?, Option.map_eq_none_iff]
    exact hlinked.target?_eq_none_iff hi
  · intro hnone
    rw [assign?, Option.map_eq_none_iff] at hnone
    rw [Run.assignVariable_apply, hnone]
  · intro s' hs'
    obtain ⟨j, hj, rfl⟩ := Option.map_eq_some_iff.1 hs'
    have htarget := (hlinked.target?_eq_some_iff hi).1 hj
    -- the scope that changes is met from where the assignment is made
    have hmeets : w.store.Meets x j i := by
      rcases htarget with hinnermost | ⟨-, rfl, rfl⟩
      · exact hinnermost.1
      · exact .here
    have hrebound := hlinked.rebound_define (Nat.lt_of_le_of_lt (hlinked.le_of_meets hmeets) hi) x v
    refine ⟨?_, hrebound.seen i ((hrebound.innermost_iff i).2 hmeets), j, htarget, hrebound⟩
    rw [Run.assignVariable_apply, hj]

/-- A global scope with a name in it, a scope that binds the name again, a scope inside that
one, and one more scope right inside the global one. -/
def shadowed : World :=
  let outermost := Store.initial.define globalScope "x" (.boolean true)
  let opened := (outermost.extend globalScope [] none).2.define 1 "x" (.boolean false)
  { store := ((opened.extend 1 [] none).2.extend globalScope [] none).2 }

theorem exactEffects_of_forest_shadowed :
    shadowed.store.Forest ∧ shadowed.store.scopes.size = 4 ∧
    shadowed.store.Innermost "x" 2 1 ∧ ExactEffects shadowed 2 "x" (.text "new") ∧
    shadowed.store.Unbound "y" 3 ∧ ExactEffects shadowed 3 "y" (.text "new") := by
  have hforest : shadowed.store.Forest :=
    .extend [] none (.extend [] none (.define "x" _ (.extend [] none
      (.define "x" _ .initial (by decide)) (by decide)) (by decide)) (by decide)) (by decide)
  refine ⟨hforest, by decide, ?_, exactEffects_of_forest hforest (by decide) _ _, ?_,
    exactEffects_of_forest hforest (by decide) _ _⟩
  · exact hforest.linked.lookup?_eq_some_iff.1 (by decide)
  · exact hforest.linked.lookup?_eq_none_iff.1 (by decide)

end World

end Lamlet
