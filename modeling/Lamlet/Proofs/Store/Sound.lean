import Lamlet.Store

/-!
# Sound stores

In a sound store every scope but the global one was opened by a call of a function, lies
right inside the scope that this function was made in, which is older, and binds exactly
the parameters of the function.  Functions refer to scopes that exist.  The operations
that evaluation performs on scopes keep stores sound, and only ever add to them.

## Main definitions

* `Store.Sound` — the invariant.
* `Store.Extends` — a store that came from another one by opening scopes and binding names.
* `Store.Linked` — the part of the invariant that is about chains.

## Main results

* `Store.Sound.target` — where an assignment goes.
* `Store.Sound.define`, `Store.Sound.extend` — assignments and calls keep stores sound.
* `Store.Sound.getLast?_chain`, `Store.Sound.pairwise_chain` — **every chain of scopes goes
  down to the global one.**
-/

namespace Lamlet

/-! ### Bindings -/

namespace Assoc

variable {α β : Type} [DecidableEq α]

theorem eq_or_mem_of_mem_put {key : α} {value : β} {l : List (α × β)} {b : α × β}
    (h : b ∈ put key value l) : b = (key, value) ∨ b ∈ l := by
  induction l with
  | nil => simpa [put] using h
  | cons entry rest ih =>
    obtain ⟨k, v⟩ := entry
    by_cases hk : k = key
    · rw [put, if_pos hk, List.mem_cons] at h
      rcases h with rfl | h
      · exact .inl (by rw [hk])
      · exact .inr (List.mem_cons_of_mem _ h)
    · rw [put, if_neg hk, List.mem_cons] at h
      rcases h with rfl | h
      · exact .inr (List.mem_cons_self ..)
      · exact (ih h).imp_right (List.mem_cons_of_mem _)

theorem mem_of_lookup {key : α} {value : β} {l : List (α × β)} (h : l.lookup key = some value) :
    (key, value) ∈ l := by
  obtain ⟨l₁, l₂, rfl, -⟩ := List.lookup_eq_some_iff.1 h
  simp

end Assoc

namespace Scope

theorem binds_iff {s : Scope} {name : String} : s.binds name = true ↔ name ∈ s.names := by
  rw [binds, get?, List.lookup_isSome_iff, names, List.mem_map]
  constructor
  · rintro ⟨b, hb, heq⟩
    exact ⟨b, hb, (eq_of_beq heq).symm⟩
  · rintro ⟨b, hb, rfl⟩
    exact ⟨b, hb, beq_self_eq_true _⟩

theorem mem_names_bind {s : Scope} {name other : String} {value : Value} :
    other ∈ (s.bind name value).names ↔ other = name ∨ other ∈ s.names :=
  Assoc.mem_keys_put value s.bindings

theorem eq_or_mem_of_mem_bind {s : Scope} {name : String} {value : Value} {b : String × Value}
    (h : b ∈ (s.bind name value).bindings) : b = (name, value) ∨ b ∈ s.bindings :=
  Assoc.eq_or_mem_of_mem_put h

theorem outer_bindAll (s : Scope) (bs : List (String × Value)) :
    (s.bindAll bs).outer = s.outer := by
  induction bs generalizing s with
  | nil => rfl
  | cons b bs ih => exact ih (s.bind b.1 b.2)

theorem opener_bindAll (s : Scope) (bs : List (String × Value)) :
    (s.bindAll bs).opener = s.opener := by
  induction bs generalizing s with
  | nil => rfl
  | cons b bs ih => exact ih (s.bind b.1 b.2)

theorem mem_names_bindAll {s : Scope} {bs : List (String × Value)} {name : String} :
    name ∈ (s.bindAll bs).names ↔ name ∈ s.names ∨ name ∈ bs.map (·.1) := by
  induction bs generalizing s with
  | nil => simp [bindAll]
  | cons b bs ih =>
    have hrest := @ih (s.bind b.1 b.2)
    rw [mem_names_bind] at hrest
    rw [bindAll, List.foldl_cons, ← bindAll, hrest, List.map_cons, List.mem_cons]
    -- the first pair is bound before the others, but its name counts all the same
    constructor
    · rintro ((h | h) | h)
      · exact .inr (.inl h)
      · exact .inl h
      · exact .inr (.inr h)
    · rintro (h | h | h)
      · exact .inl (.inr h)
      · exact .inl (.inl h)
      · exact .inr h

theorem mem_or_mem_of_mem_bindAll {s : Scope} {bs : List (String × Value)} {b : String × Value}
    (h : b ∈ (s.bindAll bs).bindings) : b ∈ s.bindings ∨ b ∈ bs := by
  induction bs generalizing s with
  | nil => exact .inl h
  | cons c bs ih =>
    rcases @ih (s.bind c.1 c.2) h with hfirst | hrest
    · rcases eq_or_mem_of_mem_bind hfirst with rfl | hold
      · exact .inr (List.mem_cons_self ..)
      · exact .inl hold
    · exact .inr (List.mem_cons_of_mem _ hrest)

end Scope

/-! ### Scopes after an operation -/

namespace Store

variable {s s' s'' : Store}

/-- A number without a scope has an empty one. -/
theorem scope_of_size_le {i : ScopeId} (h : s.scopes.size ≤ i) : s.scope i = {} := by
  rw [scope, Array.getD_eq_getD_getElem?, Array.getElem?_eq_none h]
  rfl

/-- A scope that a call opened exists. -/
theorem lt_size_of_opener {i : ScopeId} {f : Closure} (h : (s.scope i).opener = some f) :
    i < s.scopes.size := by
  refine Nat.lt_of_not_le fun hle => ?_
  rw [scope_of_size_le hle] at h
  cases h

theorem scope_define (s : Store) (i j : ScopeId) (name : String) (value : Value) :
    (s.define i name value).scope j =
      if i = j ∧ j < s.scopes.size then (s.scope j).bind name value else s.scope j := by
  simp only [scope, define, Array.getD_eq_getD_getElem?, Array.getElem?_modify]
  by_cases hij : i = j
  · subst hij
    by_cases hi : i < s.scopes.size
    · simp [hi]
    · simp [hi]
  · simp [hij]

theorem size_define (s : Store) (i : ScopeId) (name : String) (value : Value) :
    (s.define i name value).scopes.size = s.scopes.size := by
  simp [define]

theorem outer_define (s : Store) (i j : ScopeId) (name : String) (value : Value) :
    ((s.define i name value).scope j).outer = (s.scope j).outer := by
  rw [scope_define]
  split
  · rfl
  · rfl

theorem opener_define (s : Store) (i j : ScopeId) (name : String) (value : Value) :
    ((s.define i name value).scope j).opener = (s.scope j).opener := by
  rw [scope_define]
  split
  · rfl
  · rfl

theorem chain_define (s : Store) (i j : ScopeId) (name : String) (value : Value) :
    (s.define i name value).chain j = s.chain j := by
  rw [chain, chain, outer_define]

theorem size_extend (s : Store) (i : ScopeId) (bs : List (String × Value)) (f : Option Closure) :
    (s.extend i bs f).2.scopes.size = s.scopes.size + 1 := by
  simp [extend]

theorem scope_extend_of_lt {j : ScopeId} (h : j < s.scopes.size) (i : ScopeId)
    (bs : List (String × Value)) (f : Option Closure) :
    (s.extend i bs f).2.scope j = s.scope j := by
  simp only [scope, extend, Array.getD_eq_getD_getElem?, Array.getElem?_push_lt h,
    Array.getElem?_eq_getElem h]

theorem scope_extend_size (s : Store) (i : ScopeId) (bs : List (String × Value))
    (f : Option Closure) :
    (s.extend i bs f).2.scope s.scopes.size
      = Scope.bindAll { outer := s.chain i, opener := f } bs := by
  simp only [scope, extend, Array.getD_eq_getD_getElem?, Array.getElem?_push_size,
    Option.getD_some]

/-- A scope of the new store is the one that is opened, or as it was before. -/
theorem scope_extend (s : Store) (i j : ScopeId) (bs : List (String × Value))
    (f : Option Closure) :
    (s.extend i bs f).2.scope j = if j = s.scopes.size
      then Scope.bindAll { outer := s.chain i, opener := f } bs else s.scope j := by
  rcases Nat.lt_trichotomy j s.scopes.size with hold | rfl | hnone
  · rw [if_neg (Nat.ne_of_lt hold), scope_extend_of_lt hold]
  · rw [if_pos rfl, scope_extend_size]
  · rw [if_neg (Nat.ne_of_gt hnone), scope_of_size_le (Nat.le_of_lt hnone),
      scope_of_size_le (by rw [size_extend]; exact hnone)]

theorem chain_extend_of_lt {j : ScopeId} (h : j < s.scopes.size) (i : ScopeId)
    (bs : List (String × Value)) (f : Option Closure) :
    (s.extend i bs f).2.chain j = s.chain j := by
  rw [chain, chain, scope_extend_of_lt h]

/-! ### What is bound afterwards -/

theorem mem_bindings_of_define {i j : ScopeId} {name : String} {value : Value}
    {b : String × Value} (h : b ∈ ((s.define i name value).scope j).bindings) :
    b = (name, value) ∨ b ∈ (s.scope j).bindings := by
  rw [scope_define] at h
  split at h
  · exact Scope.eq_or_mem_of_mem_bind h
  · exact .inr h

theorem mem_bindings_of_extend {i j : ScopeId} {bs : List (String × Value)} {f : Option Closure}
    {b : String × Value} (h : b ∈ ((s.extend i bs f).2.scope j).bindings) :
    b ∈ bs ∨ b ∈ (s.scope j).bindings := by
  rw [scope_extend] at h
  split at h
  · rcases Scope.mem_or_mem_of_mem_bindAll h with hempty | hbound
    · cases hempty
    · exact .inl hbound
  · exact .inr h

/-! ### What is found -/

theorem mem_chain_of_lookup? {i j : ScopeId} {name : String} (hj : s.lookup? i name = some j) :
    j ∈ s.chain i ∧ (s.scope j).binds name = true := by
  rw [lookup?] at hj
  have hbinds := List.find?_some hj
  exact ⟨List.mem_of_find?_eq_some hj, hbinds⟩

/-- A value that is read is bound somewhere. -/
theorem mem_bindings_of_get? {i : ScopeId} {name : String} {v : Value}
    (h : s.get? i name = some v) : ∃ j, (name, v) ∈ (s.scope j).bindings := by
  obtain ⟨j, -, hv⟩ := Option.bind_eq_some_iff.1 h
  exact ⟨j, Assoc.mem_of_lookup hv⟩

/-- The scope right around another one. -/
def parent? (s : Store) (i : ScopeId) : Option ScopeId := (s.scope i).outer.head?

/-! ### The invariant -/

/-- A sound store. -/
structure Sound (s : Store) : Prop where
  /-- There is a global scope. -/
  global : globalScope < s.scopes.size
  /-- No scope lies around it. -/
  outer_global : (s.scope globalScope).outer = []
  /-- No call opened it. -/
  opener_global : (s.scope globalScope).opener = none
  /-- Any other scope was opened by a call of a function, lies right inside the scope that
  the function was made in, and binds exactly the parameters of the function. -/
  opened : ∀ i, globalScope < i → i < s.scopes.size → ∃ f, (s.scope i).opener = some f
    ∧ f.scope < i ∧ (s.scope i).outer = s.chain f.scope
    ∧ ∀ name, name ∈ (s.scope i).names ↔ name ∈ f.parameters
  /-- Functions that are bound to a name refer to scopes that exist. -/
  closures : ∀ i name f, (name, Value.closure f) ∈ (s.scope i).bindings → f.scope < s.scopes.size

/-- The store came from another one by opening scopes, making functions and binding names. -/
structure Extends (s s' : Store) : Prop where
  size : s.scopes.size ≤ s'.scopes.size
  fresh : s.fresh ≤ s'.fresh
  outer : ∀ i, i < s.scopes.size → (s'.scope i).outer = (s.scope i).outer
  opener : ∀ i, i < s.scopes.size → (s'.scope i).opener = (s.scope i).opener
  names : ∀ i, i < s.scopes.size → ∀ name ∈ (s.scope i).names, name ∈ (s'.scope i).names

namespace Extends

theorem refl (s : Store) : s.Extends s :=
  ⟨Nat.le_refl _, Nat.le_refl _, fun _ _ => rfl, fun _ _ => rfl, fun _ _ _ h => h⟩

theorem trans (h : s.Extends s') (h' : s'.Extends s'') : s.Extends s'' where
  size := Nat.le_trans h.size h'.size
  fresh := Nat.le_trans h.fresh h'.fresh
  outer i hi := by rw [h'.outer i (Nat.lt_of_lt_of_le hi h.size), h.outer i hi]
  opener i hi := by rw [h'.opener i (Nat.lt_of_lt_of_le hi h.size), h.opener i hi]
  names i hi name hname :=
    h'.names i (Nat.lt_of_lt_of_le hi h.size) name (h.names i hi name hname)

theorem chain (h : s.Extends s') {i : ScopeId} (hi : i < s.scopes.size) :
    s'.chain i = s.chain i := by
  rw [Store.chain, Store.chain, h.outer i hi]

end Extends

theorem extends_define (s : Store) (i : ScopeId) (name : String) (value : Value) :
    s.Extends (s.define i name value) where
  size := Nat.le_of_eq (size_define s i name value).symm
  fresh := Nat.le_refl _
  outer j _ := outer_define s i j name value
  opener j _ := opener_define s i j name value
  names j _ n hn := by
    rw [scope_define]
    split
    · exact Scope.mem_names_bind.2 (.inr hn)
    · exact hn

theorem extends_extend (s : Store) (i : ScopeId) (bs : List (String × Value))
    (f : Option Closure) : s.Extends (s.extend i bs f).2 where
  size := Nat.le_trans (Nat.le_succ _) (Nat.le_of_eq (size_extend s i bs f).symm)
  fresh := Nat.le_refl _
  outer j hj := by rw [scope_extend_of_lt hj]
  opener j hj := by rw [scope_extend_of_lt hj]
  names j hj n hn := by rwa [scope_extend_of_lt hj]

theorem extends_newIdentity (s : Store) : s.Extends s.newIdentity.2 :=
  ⟨Nat.le_refl _, Nat.le_succ _, fun _ _ => rfl, fun _ _ => rfl, fun _ _ _ h => h⟩

/-! ### Chains -/

/-- Every scope but the global one lies right inside an older one. -/
structure Linked (s : Store) : Prop where
  /-- There is a global scope. -/
  global : globalScope < s.scopes.size
  /-- No scope lies around it. -/
  outer_global : (s.scope globalScope).outer = []
  /-- The scopes around any other scope are an older one and those around that one. -/
  inside : ∀ i, globalScope < i → i < s.scopes.size →
    ∃ p, p < i ∧ (s.scope i).outer = s.chain p

/-- Only the global scope has no scope around it, and a chain follows the scopes around. -/
theorem Linked.parent?_eq (h : s.Linked) {i : ScopeId} (hi : i < s.scopes.size) :
    (s.parent? i = none ↔ i = globalScope) ∧
    ∀ j, s.parent? i = some j → j < i ∧ s.chain i = i :: s.chain j := by
  by_cases hzero : i = globalScope
  · have hnone : s.parent? i = none := by rw [parent?, hzero, h.outer_global]; rfl
    rw [hnone]
    exact ⟨⟨fun _ => hzero, fun _ => rfl⟩, fun j hj => by cases hj⟩
  · obtain ⟨p, hlt, houter⟩ := h.inside i (Nat.pos_of_ne_zero hzero) hi
    have hsome : s.parent? i = some p := by rw [parent?, houter]; rfl
    rw [hsome]
    refine ⟨⟨fun hnone => absurd hnone (by simp), fun heq => absurd heq hzero⟩, fun j hj => ?_⟩
    obtain rfl := Option.some.inj hj
    exact ⟨hlt, by rw [chain, houter]⟩

namespace Sound

/-- Any scope but the global one lies right inside an older one. -/
theorem chain_eq (h : s.Sound) {i : ScopeId} (hpos : globalScope < i) (hi : i < s.scopes.size) :
    ∃ f, (s.scope i).opener = some f ∧ f.scope < i ∧ s.chain i = i :: s.chain f.scope := by
  obtain ⟨f, hf, hlt, houter, -⟩ := h.opened i hpos hi
  exact ⟨f, hf, hlt, by rw [chain, houter]⟩

theorem linked (h : s.Sound) : s.Linked where
  global := h.global
  outer_global := h.outer_global
  inside i hpos hi := by
    obtain ⟨f, -, hlt, houter, -⟩ := h.opened i hpos hi
    exact ⟨f.scope, hlt, houter⟩

/-- Only the global scope has no scope around it, and a chain follows the scopes around. -/
theorem parent?_eq (h : s.Sound) {i : ScopeId} (hi : i < s.scopes.size) :
    (s.parent? i = none ↔ i = globalScope) ∧
    ∀ j, s.parent? i = some j → j < i ∧ s.chain i = i :: s.chain j :=
  h.linked.parent?_eq hi

/-- A scope that a call opened is not the global one, and binds the parameters of the
function called. -/
theorem of_opener (h : s.Sound) {i : ScopeId} {f : Closure} (hf : (s.scope i).opener = some f) :
    i < s.scopes.size ∧ globalScope < i ∧ s.chain i = i :: s.chain f.scope
      ∧ ∀ name, name ∈ (s.scope i).names ↔ name ∈ f.parameters := by
  have hi := lt_size_of_opener hf
  have hpos : globalScope < i := by
    refine Nat.pos_of_ne_zero fun hzero => ?_
    rw [show i = globalScope from hzero, h.opener_global] at hf
    cases hf
  obtain ⟨g, hg, -, houter, hnames⟩ := h.opened i hpos hi
  obtain rfl : g = f := Option.some.inj (by rw [← hg, hf])
  exact ⟨hi, hpos, by rw [chain, houter], hnames⟩

theorem chain_global (h : s.Sound) : s.chain globalScope = [globalScope] := by
  rw [chain, h.outer_global]

/-- Induction along the chain of a scope. -/
theorem chain_induction (h : s.Sound) {motive : ScopeId → List ScopeId → Prop}
    (global : motive globalScope [globalScope])
    (inner : ∀ i j, globalScope < i → i < s.scopes.size → j < i → motive j (s.chain j) →
      motive i (i :: s.chain j))
    {i : ScopeId} (hi : i < s.scopes.size) : motive i (s.chain i) := by
  -- the scope that a function was made in is older than any call of it
  induction i using Nat.strongRecOn with
  | ind i ih =>
    by_cases hzero : i = globalScope
    · rw [hzero, h.chain_global]
      exact global
    · have hpos : globalScope < i := Nat.pos_of_ne_zero hzero
      obtain ⟨f, -, hlt, hchain⟩ := h.chain_eq hpos hi
      rw [hchain]
      exact inner i f.scope hpos hi hlt (ih f.scope hlt (Nat.lt_trans hlt hi))

/-- Every chain ends at the global scope. -/
theorem getLast?_chain (h : s.Sound) {i : ScopeId} (hi : i < s.scopes.size) :
    (s.chain i).getLast? = some globalScope := by
  refine h.chain_induction (motive := fun _ l => l.getLast? = some globalScope) rfl ?_ hi
  intro i j _ _ _ ih
  rw [List.getLast?_cons, ih]
  rfl

/-- No scope on a chain is younger than the first one. -/
theorem le_of_mem_chain (h : s.Sound) {i j : ScopeId} (hi : i < s.scopes.size)
    (hj : j ∈ s.chain i) : j ≤ i := by
  refine h.chain_induction (motive := fun i l => ∀ j ∈ l, j ≤ i) ?_ ?_ hi j hj
  · intro j hj
    rw [List.mem_singleton] at hj
    exact Nat.le_of_eq hj
  · intro i k _ _ hk ih j hj
    rcases List.mem_cons.1 hj with rfl | hj
    · exact Nat.le_refl _
    · exact Nat.le_trans (ih j hj) (Nat.le_of_lt hk)

/-- Scopes get older along a chain, so that none occurs twice. -/
theorem pairwise_chain (h : s.Sound) {i : ScopeId} (hi : i < s.scopes.size) :
    (s.chain i).Pairwise (· > ·) := by
  refine h.chain_induction (motive := fun _ l => l.Pairwise (· > ·)) (List.pairwise_singleton ..)
    ?_ hi
  intro i j _ hi hj ih
  refine List.pairwise_cons.2 ⟨fun k hk => ?_, ih⟩
  exact Nat.lt_of_le_of_lt (h.le_of_mem_chain (Nat.lt_trans hj hi) hk) hj

/-! ### Operations -/

/-- An assignment goes to a scope that binds the name, or to the global one. -/
theorem target (h : s.Sound) {i j : ScopeId} {name : String} (hi : i < s.scopes.size)
    (hj : s.target? i name = some j) :
    j < s.scopes.size ∧ (globalScope < j → name ∈ (s.scope j).names) := by
  unfold target? at hj
  split at hj
  · next k hk =>
    obtain rfl := Option.some.inj hj
    obtain ⟨hmem, hbinds⟩ := mem_chain_of_lookup? hk
    exact ⟨Nat.lt_of_le_of_lt (h.le_of_mem_chain hi hmem) hi, fun _ => Scope.binds_iff.1 hbinds⟩
  · split at hj
    · next hglobal =>
      obtain rfl := Option.some.inj hj
      refine ⟨hi, fun hpos => ?_⟩
      -- only the global scope has no scope around it
      obtain ⟨f, -, -, houter, -⟩ := h.opened i hpos hi
      rw [Scope.isGlobal, houter] at hglobal
      cases hglobal
    · cases hj

theorem define (h : s.Sound) {i : ScopeId} {name : String} {value : Value}
    (hname : globalScope < i → name ∈ (s.scope i).names)
    (hvalue : ∀ f, value = .closure f → f.scope < s.scopes.size) :
    (s.define i name value).Sound where
  global := by rw [size_define]; exact h.global
  outer_global := by rw [outer_define]; exact h.outer_global
  opener_global := by rw [opener_define]; exact h.opener_global
  opened j hpos hj := by
    rw [size_define] at hj
    obtain ⟨f, hf, hlt, houter, hnames⟩ := h.opened j hpos hj
    refine ⟨f, by rw [opener_define, hf], hlt, by rw [outer_define, houter, chain_define], ?_⟩
    intro n
    rw [scope_define]
    split
    · next hij =>
      obtain ⟨rfl, -⟩ := hij
      -- the name assigned is among the names of the scope already
      rw [Scope.mem_names_bind, hnames]
      exact or_iff_right_of_imp fun hn => hn ▸ (hnames name).1 (hname hpos)
    · exact hnames n
  closures j n f hf := by
    rw [size_define]
    rcases mem_bindings_of_define hf with hnew | hold
    · exact hvalue f (Prod.mk.inj hnew).2.symm
    · exact h.closures j n f hold

theorem extend (h : s.Sound) {f : Closure} (hf : f.scope < s.scopes.size) {vs : List Value}
    (hvs : ∀ v ∈ vs, ∀ g, v = .closure g → g.scope < s.scopes.size) :
    (s.extend f.scope (bindArguments f.parameters vs) (some f)).2.Sound where
  global := by
    rw [size_extend]
    exact Nat.lt_succ_of_lt h.global
  outer_global := by
    rw [scope_extend_of_lt h.global]
    exact h.outer_global
  opener_global := by
    rw [scope_extend_of_lt h.global]
    exact h.opener_global
  opened i hpos hi := by
    rw [size_extend] at hi
    -- an older scope keeps its chain, and the new one has that of the function around it
    by_cases hold : i < s.scopes.size
    · obtain ⟨g, hg, hlt, houter, hnames⟩ := h.opened i hpos hold
      rw [scope_extend_of_lt hold]
      refine ⟨g, hg, hlt, ?_, hnames⟩
      rw [chain_extend_of_lt (Nat.lt_trans hlt hold), houter]
    · obtain rfl : i = s.scopes.size := Nat.eq_of_lt_succ_of_not_lt hi hold
      rw [scope_extend_size]
      refine ⟨f, Scope.opener_bindAll _ _, hf, ?_, fun name => ?_⟩
      · rw [Scope.outer_bindAll, chain_extend_of_lt hf]
      rw [Scope.mem_names_bindAll, map_fst_bindArguments]
      exact or_iff_right (by simp [Scope.names])
  closures i name g hg := by
    rw [size_extend]
    refine Nat.lt_succ_of_lt ?_
    rcases mem_bindings_of_extend hg with hnew | hold
    · exact hvs _ (closure_mem_of_mem_bindArguments hnew rfl) g rfl
    · exact h.closures i name g hold

theorem newIdentity (h : s.Sound) : s.newIdentity.2.Sound :=
  ⟨h.global, h.outer_global, h.opener_global, h.opened, h.closures⟩

end Sound

end Store

end Lamlet
