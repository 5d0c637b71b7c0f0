import Mathlib.Data.List.Find
import Lamlet.Proofs.Store.Sound

/-!
# Scopes that are reached

A scope is reached from another one through the scopes around it and through the functions
that are bound in scopes that are reached.  A *closed* set of scopes has with a scope all
that is reached from it; what is read and written from inside such a set stays inside, so
two stores that agree there cannot be told apart from inside.

## Main definitions

* `Store.Reaches` — a scope is reached from another one.
* `Store.Closed` — a set of scopes that leads nowhere else.
* `Store.AgreeOn` — two stores with the same scopes, which agree on some of them.
* `Store.release` — a store in which some scopes have been emptied.

## Main results

* `Store.Sound.closed_reached` — **what is reached from a scope, and what does not exist
  yet, is closed.**
* `Store.Closed.define`, `Store.Closed.extend` — assignments and calls keep a set closed.
* `Store.AgreeOn.get?_eq`, `Store.AgreeOn.target?_eq` — agreeing stores read the same.
* `Store.AgreeOn.define`, `Store.AgreeOn.extend` — and are changed alike.
-/

namespace Lamlet

/-! ### Bindings -/

namespace Scope

theorem get?_bind (s : Scope) (name other : String) (value : Value) :
    (s.bind name value).get? other = if other = name then some value else s.get? other := by
  by_cases h : other = name
  · subst h
    rw [if_pos rfl]
    exact Assoc.lookup_put_self other value s.bindings
  · rw [if_neg h]
    exact Assoc.lookup_put_of_ne h value s.bindings

theorem mem_of_get?_bindAll {s : Scope} (hs : s.bindings = []) {bs : List (String × Value)}
    {name : String} {value : Value} (h : (s.bindAll bs).get? name = some value) :
    (name, value) ∈ bs := by
  rcases mem_or_mem_of_mem_bindAll (Assoc.mem_of_lookup h) with hold | hnew
  · rw [hs] at hold
    cases hold
  · exact hnew

end Scope

namespace Store

variable {s t : Store} {region : ScopeId → Prop}

/-! ### Reaching and closed sets -/

/-- A scope is reached from the scope `i`. -/
inductive Reaches (s : Store) (i : ScopeId) : ScopeId → Prop where
  | self : Reaches s i i
  | parent {j k : ScopeId} : Reaches s i j → s.parent? j = some k → Reaches s i k
  | closure {j : ScopeId} {name : String} {f : Closure} :
      Reaches s i j → (s.scope j).get? name = some (.closure f) → Reaches s i f.scope

/-- A set of scopes that leads nowhere else: with a scope it has those around it, and those
of the functions bound in it. -/
structure Closed (s : Store) (region : ScopeId → Prop) : Prop where
  outer : ∀ i, region i → ∀ j ∈ (s.scope i).outer, region j
  closures : ∀ i, region i → ∀ name f, (s.scope i).get? name = some (.closure f) →
    region f.scope

/-- Every set is closed that has all scopes. -/
theorem closed_of_forall (s : Store) (h : ∀ i, region i) : s.Closed region :=
  ⟨fun _ _ j _ => h j, fun _ _ _ f _ => h f.scope⟩

namespace Closed

/-- A closed set has what is reached from it. -/
theorem of_reaches (h : s.Closed region) {i j : ScopeId} (hi : region i) (hj : s.Reaches i j) :
    region j := by
  induction hj with
  | self => exact hi
  | parent _ hparent ih => exact h.outer _ ih _ (List.mem_of_mem_head? hparent)
  | closure _ hbound ih => exact h.closures _ ih _ _ hbound

theorem of_mem_chain (h : s.Closed region) {i j : ScopeId} (hi : region i) (hj : j ∈ s.chain i) :
    region j := by
  rcases List.mem_cons.1 hj with rfl | houter
  · exact hi
  · exact h.outer i hi j houter

theorem of_lookup? (h : s.Closed region) {i j : ScopeId} {name : String} (hi : region i)
    (hj : s.lookup? i name = some j) : region j :=
  h.of_mem_chain hi (mem_chain_of_lookup? hj).1

/-- A function that is read refers into the set. -/
theorem of_get? (h : s.Closed region) {i : ScopeId} {name : String} {f : Closure} (hi : region i)
    (hf : s.get? i name = some (.closure f)) : region f.scope := by
  obtain ⟨j, hj, hbound⟩ := Option.bind_eq_some_iff.1 hf
  exact h.closures j (h.of_lookup? hi hj) name f hbound

/-- An assignment goes into the set. -/
theorem of_target? (h : s.Closed region) {i j : ScopeId} {name : String} (hi : region i)
    (hj : s.target? i name = some j) : region j := by
  unfold target? at hj
  split at hj
  · next k hk =>
    obtain rfl := Option.some.inj hj
    exact h.of_lookup? hi hk
  · split at hj
    · obtain rfl := Option.some.inj hj
      exact hi
    · cases hj

theorem define (h : s.Closed region) (i : ScopeId) (name : String) {value : Value}
    (hvalue : ∀ f, value = .closure f → region f.scope) :
    (s.define i name value).Closed region where
  outer j hj := by
    rw [outer_define]
    exact h.outer j hj
  closures j hj n f hf := by
    rw [scope_define] at hf
    split at hf
    · -- the scope that is changed keeps its other names
      rw [Scope.get?_bind] at hf
      split at hf
      · exact hvalue f (Option.some.inj hf)
      · exact h.closures j hj n f hf
    · exact h.closures j hj n f hf

theorem extend (h : s.Closed region) {i : ScopeId} (hi : region i) {bs : List (String × Value)}
    (hbs : ∀ b ∈ bs, ∀ f, b.2 = .closure f → region f.scope) (opener : Option Closure) :
    (s.extend i bs opener).2.Closed region := by
  constructor
  · intro j hj
    rw [scope_extend]
    split
    · rw [Scope.outer_bindAll]
      exact fun k hk => h.of_mem_chain hi hk
    · exact h.outer j hj
  · intro j hj name f hf
    rw [scope_extend] at hf
    split at hf
    · exact hbs _ (Scope.mem_of_get?_bindAll rfl hf) f rfl
    · exact h.closures j hj name f hf

end Closed

/-! ### Sound stores -/

namespace Sound

/-- What is reached from a scope that exists exists. -/
theorem lt_size_of_reaches (h : s.Sound) {i j : ScopeId} (hi : i < s.scopes.size)
    (hj : s.Reaches i j) : j < s.scopes.size := by
  induction hj with
  | self => exact hi
  | parent _ hparent ih => exact Nat.lt_trans ((h.parent?_eq ih).2 _ hparent).1 ih
  | closure _ hbound _ => exact h.closures _ _ _ (Assoc.mem_of_lookup hbound)

/-- A scope reaches all scopes of its chain. -/
theorem reaches_of_mem_chain (h : s.Sound) {i j k : ScopeId} (hj : s.Reaches i j)
    (hlt : j < s.scopes.size) (hk : k ∈ s.chain j) : s.Reaches i k := by
  -- the scope around another one is older
  induction j using Nat.strongRecOn with
  | ind j ih =>
    cases hparent : s.parent? j with
    | none =>
      obtain rfl := ((h.parent?_eq hlt).1).1 hparent
      rw [h.chain_global, List.mem_singleton] at hk
      rwa [hk]
    | some p =>
      obtain ⟨holder, hchain⟩ := (h.parent?_eq hlt).2 p hparent
      rw [hchain] at hk
      rcases List.mem_cons.1 hk with rfl | hk
      · exact hj
      · exact ih p holder (.parent hj hparent) (Nat.lt_trans holder hlt) hk

/-- **What is reached from a scope, and what does not exist yet, is closed.**  The scopes that do
not exist yet are taken in because those that a run opens are among them: so the set stays closed
while it runs. -/
theorem closed_reached (h : s.Sound) {i : ScopeId} (hi : i < s.scopes.size) :
    s.Closed fun j => s.Reaches i j ∨ s.scopes.size ≤ j := by
  constructor
  · rintro j (hj | hj) k hk
    · refine .inl (h.reaches_of_mem_chain hj (h.lt_size_of_reaches hi hj) ?_)
      exact List.mem_cons_of_mem _ hk
    · rw [scope_of_size_le hj] at hk
      cases hk
  · rintro j (hj | hj) name f hf
    · exact .inl (.closure hj hf)
    · rw [scope_of_size_le hj] at hf
      cases hf

end Sound

/-! ### Stores that agree -/

/-- Two stores have the same scopes, count functions alike, and agree on the given scopes. -/
structure AgreeOn (region : ScopeId → Prop) (s t : Store) : Prop where
  size : t.scopes.size = s.scopes.size
  fresh : t.fresh = s.fresh
  scope : ∀ i, region i → t.scope i = s.scope i

namespace AgreeOn

variable (h : AgreeOn region s t) (hclosed : s.Closed region)

theorem refl (s : Store) : AgreeOn region s s := ⟨rfl, rfl, fun _ _ => rfl⟩

include h

theorem chain_eq {i : ScopeId} (hi : region i) : t.chain i = s.chain i := by
  rw [chain, chain, h.scope i hi]

include hclosed

theorem lookup?_eq {i : ScopeId} (hi : region i) (name : String) :
    t.lookup? i name = s.lookup? i name := by
  rw [lookup?, lookup?, h.chain_eq hi]
  refine List.find?_congr fun j hj => ?_
  rw [h.scope j (hclosed.of_mem_chain hi hj)]

/-- The same is read from inside the set. -/
theorem get?_eq {i : ScopeId} (hi : region i) (name : String) : t.get? i name = s.get? i name := by
  rw [Store.get?, Store.get?, h.lookup?_eq hclosed hi name]
  cases hlookup : s.lookup? i name with
  | none => rfl
  | some j =>
    simp only [Option.bind_some]
    rw [h.scope j (hclosed.of_lookup? hi hlookup)]

/-- Assignments from inside the set go to the same scope. -/
theorem target?_eq {i : ScopeId} (hi : region i) (name : String) :
    t.target? i name = s.target? i name := by
  rw [target?, target?, h.lookup?_eq hclosed hi name, h.scope i hi]

omit hclosed

theorem define (i : ScopeId) (name : String) (value : Value) :
    AgreeOn region (s.define i name value) (t.define i name value) where
  size := by rw [size_define, size_define, h.size]
  fresh := h.fresh
  scope j hj := by rw [scope_define, scope_define, h.size, h.scope j hj]

theorem newIdentity : AgreeOn region s.newIdentity.2 t.newIdentity.2 where
  size := h.size
  fresh := congrArg (· + 1) h.fresh
  scope := h.scope

theorem extend {i : ScopeId} (hi : region i) (bs : List (String × Value))
    (opener : Option Closure) :
    AgreeOn region (s.extend i bs opener).2 (t.extend i bs opener).2 where
  size := by rw [size_extend, size_extend, h.size]
  fresh := h.fresh
  scope j hj := by
    rw [scope_extend, scope_extend, h.size, h.chain_eq hi, h.scope j hj]

end AgreeOn

/-! ### Releasing scopes -/

/-- Two stores are the same if all their scopes are. -/
theorem eq_of_scope_eq (hsize : t.scopes.size = s.scopes.size) (hfresh : t.fresh = s.fresh)
    (hscope : ∀ i, t.scope i = s.scope i) : t = s := by
  have hscopes : t.scopes = s.scopes := by
    refine Array.ext hsize fun i hi hi' => ?_
    have h := hscope i
    simpa [scope, Array.getD_eq_getD_getElem?, hi, hi'] using h
  cases s
  cases t
  simp only [mk.injEq]
  exact ⟨hscopes, hfresh⟩

/-- Empties some scopes. -/
def release (s : Store) (dead : List ScopeId) : Store :=
  { s with scopes := s.scopes.mapIdx fun i scope => if i ∈ dead then {} else scope }

theorem size_release (s : Store) (dead : List ScopeId) :
    (s.release dead).scopes.size = s.scopes.size := by
  simp [release]

theorem scope_release (s : Store) (dead : List ScopeId) (i : ScopeId) :
    (s.release dead).scope i = if i ∈ dead then {} else s.scope i := by
  by_cases hi : i < s.scopes.size
  · simp [scope, release, Array.getD_eq_getD_getElem?, hi]
  · have hnone := Nat.le_of_not_lt hi
    rw [scope_of_size_le hnone, scope_of_size_le (by rw [size_release]; exact hnone), ite_self]

/-- Emptying scopes outside a set is not seen from inside. -/
theorem agreeOn_release (s : Store) {dead : List ScopeId} (h : ∀ i ∈ dead, ¬ region i) :
    AgreeOn region s (s.release dead) where
  size := size_release s dead
  fresh := rfl
  scope i hi := by
    rw [scope_release, if_neg fun hdead => h i hdead hi]

end Store

end Lamlet
