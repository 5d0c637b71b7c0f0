import Lamlet.Proofs.Eval.Acts
import Lamlet.Proofs.Store.Reach
import Lamlet.Proofs.Store.Runs

/-!
# Where bindings change

A name changes its value only where the text of a program assigns it.  Which scope an
assignment changes can be read off the text: it is the call of the innermost lambda around
it that has the name as a parameter, or the global scope if there is none.  Functions carry
their bodies through the store and are called much later, so what the text allows is kept as
a discipline of evaluation.

## Main definitions

* `Term.Assigns` — a term assigns a name outside the lambdas that have it as a parameter.
* `Store.home` — the scope that an assignment changes.
* `Store.Assignable` — a scope in which the text allows that a name changes.
* `assignmentDiscipline` — names change in such scopes only.

## Main results

* `Store.Sound.eq_home_of_target?`, `Store.Sound.home_of_extends` — assignments go to the
  home of a name, which stays where it is.
* `World.binding_kept` — **a name that is nowhere assigned keeps its value**, in the global
  scope and in the scope of a call.
-/

namespace Lamlet

open Store

/-! ### Assignments in the text -/

/-- The term assigns a name outside the lambdas that have it as a parameter. -/
inductive Term.Assigns (name : String) : Term → Prop where
  /-- It is an assignment of the name. -/
  | here (value : Term) : Assigns name (.assign (.var name) value)
  /-- A part of it assigns the name, and it is no lambda with the name as a parameter. -/
  | part {t u : Term} : t.hasParameter name = false → u ∈ t.parts → Assigns name u →
      Assigns name t

namespace Term

variable {name : String}

theorem hasParameter_of_not_isLambda {t : Term} (h : t.isLambda = false) (name : String) :
    t.hasParameter name = false := by
  cases t with
  | lambda parameters body => cases h
  | _ => rfl

theorem assigns_iff {t : Term} : t.Assigns name ↔ (∃ value, t = .assign (.var name) value) ∨
    (t.hasParameter name = false ∧ ∃ u ∈ t.parts, u.Assigns name) := by
  constructor
  · rintro (⟨value⟩ | ⟨hlambda, hpart, hassigns⟩)
    · exact .inl ⟨value, rfl⟩
    · exact .inr ⟨hlambda, _, hpart, hassigns⟩
  · rintro (⟨value, rfl⟩ | ⟨hlambda, u, hpart, hassigns⟩)
    · exact .here value
    · exact .part hlambda hpart hassigns

theorem not_assigns_of_parts_eq_nil {t : Term} (h : t.parts = []) : ¬ t.Assigns name := by
  rw [assigns_iff, h]
  rintro (⟨value, rfl⟩ | ⟨-, u, hu, -⟩)
  · cases h
  · cases hu

theorem assigns_assign {target value : Term} : (Term.assign target value).Assigns name ↔
    target = .var name ∨ target.Assigns name ∨ value.Assigns name := by
  rw [assigns_iff]
  simp [parts, hasParameter]

theorem assigns_lambda {parameters : List String} {body : Term} :
    (Term.lambda parameters body).Assigns name ↔ name ∉ parameters ∧ body.Assigns name := by
  rw [assigns_iff]
  simp [parts, hasParameter]

theorem assigns_call {callee : Term} {arguments : List Term} :
    (Term.call callee arguments).Assigns name ↔
      callee.Assigns name ∨ ∃ t ∈ arguments, t.Assigns name := by
  rw [assigns_iff]
  simp [parts, hasParameter]

theorem assigns_block {body : List Term} :
    (Term.block body).Assigns name ↔ ∃ t ∈ body, t.Assigns name := by
  rw [assigns_iff]
  simp [parts, hasParameter]

end Term

/-! ### The home of a name -/

namespace Store

variable {s s' : Store} {i j : ScopeId} {name : String}

/-- The scope that an assignment of a name changes, seen from a scope: the innermost one
that binds the name, or the global one. -/
def home (s : Store) (i : ScopeId) (name : String) : ScopeId := (s.lookup? i name).getD globalScope

namespace Sound

theorem home_global (h : s.Sound) (name : String) : s.home globalScope name = globalScope := by
  rw [home, lookup?, h.chain_global, List.find?_singleton]
  split <;> rfl

/-- In the scope of a call, a parameter is at home; any other name is where it is for the
function. -/
theorem home_of_opener (h : s.Sound) {f : Closure} (hf : (s.scope i).opener = some f)
    (name : String) :
    s.home i name = if name ∈ f.parameters then i else s.home f.scope name := by
  obtain ⟨-, -, hchain, hnames⟩ := h.of_opener hf
  rw [home, lookup?, hchain, List.find?_cons]
  by_cases hname : name ∈ f.parameters
  · rw [Scope.binds_iff.2 ((hnames name).2 hname), if_pos hname]
    rfl
  · have hunbound : (s.scope i).binds name = false := by
      rw [← Bool.not_eq_true, Scope.binds_iff, hnames]
      exact hname
    rw [hunbound, if_neg hname]
    rfl

/-- An assignment changes the home of the name. -/
theorem eq_home_of_target? (h : s.Sound) (hi : i < s.scopes.size)
    (hj : s.target? i name = some j) : j = s.home i name := by
  rw [home]
  unfold target? at hj
  split at hj
  · next k hk =>
    rw [hk]
    exact (Option.some.inj hj).symm
  · next hnone =>
    rw [hnone]
    split at hj
    · next hglobal =>
      obtain rfl := Option.some.inj hj
      -- only the global scope has no scope around it
      refine Classical.byContradiction fun hzero => ?_
      obtain ⟨f, -, -, houter, -⟩ := h.opened i (Nat.pos_of_ne_zero hzero) hi
      rw [Scope.isGlobal, houter] at hglobal
      cases hglobal
    · cases hj

/-- The home of a name stays where it is. -/
theorem home_of_extends (h : s.Sound) (h' : s'.Sound) (hextends : s.Extends s')
    (hi : i < s.scopes.size) (name : String) : s'.home i name = s.home i name := by
  -- along the calls around the scope, which are older
  induction i using Nat.strongRecOn with
  | ind i ih =>
    by_cases hzero : i = globalScope
    · rw [hzero, h.home_global, h'.home_global]
    · obtain ⟨f, hf, hlt, -, -⟩ := h.opened i (Nat.pos_of_ne_zero hzero) hi
      have hf' : (s'.scope i).opener = some f := by rw [hextends.opener i hi, hf]
      rw [h.home_of_opener hf, h'.home_of_opener hf', ih f.scope hlt (Nat.lt_trans hlt hi)]

end Sound

/-! ### What the text allows -/

/-- The text allows that a name changes in a scope: some program assigns it, if the scope is
the global one, and if the name is a parameter of the function whose call opened the scope,
the body of the function assigns it. -/
structure Assignable (s : Store) (name : String) (assigned : Prop) (i : ScopeId) : Prop where
  lt_size : i < s.scopes.size
  global : i = globalScope → assigned
  parameter : ∀ f, (s.scope i).opener = some f → name ∈ f.parameters → f.body.Assigns name

/-- A function that assigns a name which is not its parameter does so where the text allows
it. -/
structure Allows (s : Store) (name : String) (assigned : Prop) (f : Closure) : Prop where
  lt_size : f.scope < s.scopes.size
  outside : name ∉ f.parameters → f.body.Assigns name →
    s.Assignable name assigned (s.home f.scope name)

/-- A later store, in which a name has changed at most where the text allows it. -/
structure Spares (s s' : Store) (name : String) (assigned : Prop) : Prop where
  grows : s.Extends s'
  home : ∀ i, i < s.scopes.size → s'.home i name = s.home i name
  kept : ∀ i, i < s.scopes.size → ¬ s.Assignable name assigned i →
    (s'.scope i).get? name = (s.scope i).get? name

variable {assigned : Prop} {s'' : Store}

theorem Assignable.of_extends (h : s.Assignable name assigned i) (hextends : s.Extends s') :
    s'.Assignable name assigned i := by
  refine ⟨Nat.lt_of_lt_of_le h.lt_size hextends.size, h.global, fun f hf => ?_⟩
  rw [hextends.opener i h.lt_size] at hf
  exact h.parameter f hf

theorem Assignable.to_extends (h : s'.Assignable name assigned i) (hextends : s.Extends s')
    (hi : i < s.scopes.size) : s.Assignable name assigned i := by
  refine ⟨hi, h.global, fun f hf => h.parameter f ?_⟩
  rw [hextends.opener i hi, hf]

namespace Spares

theorem refl (s : Store) (name : String) (assigned : Prop) : s.Spares s name assigned :=
  ⟨.refl s, fun _ _ => rfl, fun _ _ _ => rfl⟩

theorem trans (h : s.Spares s' name assigned) (h' : s'.Spares s'' name assigned) :
    s.Spares s'' name assigned where
  grows := h.grows.trans h'.grows
  home i hi := by rw [h'.home i (Nat.lt_of_lt_of_le hi h.grows.size), h.home i hi]
  kept i hi hstill := by
    have hstill' : ¬ s'.Assignable name assigned i := fun hassignable =>
      hstill (hassignable.to_extends h.grows hi)
    rw [h'.kept i (Nat.lt_of_lt_of_le hi h.grows.size) hstill', h.kept i hi hstill]

theorem allows (h : s.Spares s' name assigned) {f : Closure} (hf : s.Allows name assigned f) :
    s'.Allows name assigned f := by
  refine ⟨Nat.lt_of_lt_of_le hf.lt_size h.grows.size, fun hname hassigns => ?_⟩
  rw [h.home f.scope hf.lt_size]
  exact (hf.outside hname hassigns).of_extends h.grows

/-- An assignment in a scope where the text allows it. -/
theorem of_define (hs : s.Sound) {n : String} {v : Value} (hs' : (s.define j n v).Sound)
    (hj : n = name → s.Assignable name assigned j) :
    s.Spares (s.define j n v) name assigned := by
  refine ⟨extends_define .., fun i hi => hs.home_of_extends hs' (extends_define ..) hi name, ?_⟩
  intro i hi hstill
  rw [scope_define]
  split
  · next hij =>
    obtain ⟨rfl, -⟩ := hij
    have hne : name ≠ n := fun heq => hstill (hj heq.symm)
    rw [Scope.get?_bind, if_neg hne]
  · rfl

/-- A call changes nothing in the scopes that are there. -/
theorem of_extend (hs : s.Sound) {f : Closure} {bs : List (String × Value)}
    (hs' : (s.extend f.scope bs (some f)).2.Sound) :
    s.Spares (s.extend f.scope bs (some f)).2 name assigned := by
  refine ⟨extends_extend .., fun i hi => hs.home_of_extends hs' (extends_extend ..) hi name, ?_⟩
  intro i hi _
  rw [scope_extend_of_lt hi]

end Spares

/-- In the scope that a call opens, the body of the function assigns a name where the text
allows it. -/
theorem Allows.assignable_body {f : Closure} {bs : List (String × Value)} (hs : s.Sound)
    (hs' : (s.extend f.scope bs (some f)).2.Sound) (hf : s.Allows name assigned f)
    (hassigns : f.body.Assigns name) :
    (s.extend f.scope bs (some f)).2.Assignable name assigned
      ((s.extend f.scope bs (some f)).2.home s.scopes.size name) := by
  have hspares : s.Spares _ name assigned := .of_extend hs hs'
  have hopener : ((s.extend f.scope bs (some f)).2.scope s.scopes.size).opener = some f := by
    rw [scope_extend_size, Scope.opener_bindAll]
  rw [hs'.home_of_opener hopener]
  split
  · -- the name is a parameter, so its home is the new scope, which the body may assign
    refine ⟨?_, ?_, ?_⟩
    · rw [size_extend]
      exact Nat.lt_succ_self _
    · intro hzero
      exact absurd hs.global (by rw [hzero]; exact Nat.lt_irrefl _)
    · intro g hg _
      obtain rfl : f = g := Option.some.inj (hopener.symm.trans hg)
      exact hassigns
  · next hname =>
    -- otherwise it is assigned where the function was made, outside the new scope
    rw [hspares.home f.scope hf.lt_size]
    exact (hf.outside hname hassigns).of_extends hspares.grows

end Store

/-! ### The discipline -/

/-- A name changes only where the text allows it. -/
def assignmentDiscipline (name : String) (assigned : Prop) : Discipline where
  good s := s.world.store.Sound ∧ ∀ i n f, (n, Value.closure f) ∈ (s.world.store.scope i).bindings →
    s.world.store.Allows name assigned f
  step s s' := s.world.store.Spares s'.world.store name assigned
  fit s p t := p.scope < s.world.store.scopes.size ∧
    (t.Assigns name → s.world.store.Assignable name assigned (s.world.store.home p.scope name))
  sound s v := ∀ f, v = .closure f → s.world.store.Allows name assigned f
  refl s := .refl _ _ _
  trans h h' := h.trans h'
  fit_mono {s s' p t} h hfit := by
    refine ⟨Nat.lt_of_lt_of_le hfit.1 h.grows.size, fun hassigns => ?_⟩
    rw [h.home p.scope hfit.1]
    exact (hfit.2 hassigns).of_extends h.grows
  sound_mono h hsound f hf := h.allows (hsound f hf)
  part hlambda hpart hfit := by
    refine ⟨hfit.1, fun hassigns => hfit.2 ?_⟩
    exact .part (Term.hasParameter_of_not_isLambda hlambda name) (List.mem_of_getElem? hpart)
      hassigns
  plain s v hv f hf := by
    rw [hf] at hv
    cases hv
  emit _ hs := ⟨hs, .refl _ _ _⟩
  look hs _ _ := ⟨hs, .refl _ _ _⟩
  read hs _ hget f hf := by
    obtain ⟨j, hbound⟩ := mem_bindings_of_get? hget
    rw [hf] at hbound
    exact hs.2 j _ f hbound
  write {s p n value i v} hs hfit hv htarget := by
    have hplace := hs.1.target hfit.1 htarget
    have hsound : (s.world.store.define i n v).Sound :=
      hs.1.define hplace.2 fun f hf => (hv f hf).lt_size
    have hspares : s.world.store.Spares (s.world.store.define i n v) name assigned := by
      refine .of_define hs.1 hsound fun hn => ?_
      subst hn
      rw [hs.1.eq_home_of_target? hfit.1 htarget]
      exact hfit.2 (.here value)
    refine ⟨⟨hsound, fun j m f hf => ?_⟩, hspares⟩
    rcases mem_bindings_of_define hf with hnew | hold
    · exact hspares.allows (hv f (Prod.mk.inj hnew).2.symm)
    · exact hspares.allows (hs.2 j m f hold)
  make {s p parameters body} hs hfit := by
    have hspares : s.world.store.Spares s.world.store.newIdentity.2 name assigned :=
      ⟨extends_newIdentity _, fun _ _ => rfl, fun _ _ _ => rfl⟩
    refine ⟨⟨hs.1.newIdentity, fun i n f hf => hspares.allows (hs.2 i n f hf)⟩, hspares, ?_⟩
    intro f hf
    obtain rfl := Value.closure.inj hf
    refine hspares.allows ⟨hfit.1, fun hname hassigns => hfit.2 ?_⟩
    refine .part ?_ (List.mem_singleton_self body) hassigns
    simpa [Term.hasParameter] using hname
  enter {s f vs} hs hf hvs := by
    have hallows := hf f rfl
    have hsound : (s.enter f vs).world.store.Sound :=
      hs.1.extend hallows.lt_size fun v hv g hg => (hvs v hv g hg).lt_size
    have hspares : s.world.store.Spares (s.enter f vs).world.store name assigned :=
      .of_extend hs.1 hsound
    refine ⟨⟨hsound, fun i n g hg => ?_⟩, hspares, ?_, ?_⟩
    · rcases mem_bindings_of_extend hg with hnew | hold
      · exact hspares.allows (hvs _ (closure_mem_of_mem_bindArguments hnew rfl) g rfl)
      · exact hspares.allows (hs.2 i n g hold)
    · show s.world.store.scopes.size < _
      rw [Watched.enter, size_extend]
      exact Nat.lt_succ_self _
    · exact hallows.assignable_body hs.1 hsound

/-! ### Over a whole session -/

namespace World

variable {w : World} {name : String}

theorem history_append (w : World) (turns turns' : List Turn) :
    w.history (turns ++ turns') = w.history turns ++ (w.takeAll turns).history turns' := by
  induction turns generalizing w with
  | nil => rfl
  | cons turn turns ih =>
    rw [List.cons_append, history, history, List.append_assoc, ih]
    rfl

/-- The acts of a session from a fresh world on, under the discipline. -/
theorem Fresh.path_history (hw : w.Fresh) (assigned : Prop) {turns : List Turn}
    (h : ∀ turn ∈ turns, (Term.block turn.program).Assigns name → assigned) :
    (assignmentDiscipline name assigned).good { world := w } ∧
      ∃ s, (assignmentDiscipline name assigned).Path { world := w } (w.history turns) s := by
  have hgood : (assignmentDiscipline name assigned).good { world := w } :=
    ⟨hw.sound, fun i n f hf => absurd hf (hw.not_mem_bindings i n f)⟩
  refine ⟨hgood, Discipline.path_history turns (fun turn hturn s hs => ?_) hgood⟩
  refine ⟨hs.1.global, fun hassigns => ?_⟩
  -- a program is evaluated in the global scope, where every name is at home
  change s.world.store.Assignable name assigned (s.world.store.home globalScope name)
  rw [hs.1.home_global]
  refine ⟨hs.1.global, fun _ => h turn hturn hassigns, fun f hf => ?_⟩
  rw [hs.1.opener_global] at hf
  cases hf

/-- At each moment of the acts, from the given world on, a name has the same value in a
scope. -/
def Constant (w : World) (acts : List Act) (i : ScopeId) (name : String) (value : Option Value) :
    Prop :=
  ∀ done, done <+: acts → ((w.perform done).store.scope i).get? name = value

/-- Where the text does not allow that a name changes, it does not. -/
theorem constant_of_path {assigned : Prop} {s s' : Watched} {acts : List Act}
    (hs : (assignmentDiscipline name assigned).good s)
    (h : (assignmentDiscipline name assigned).Path s acts s') {i : ScopeId}
    (hi : i < s.world.store.scopes.size) (hstill : ¬ s.world.store.Assignable name assigned i) :
    s.world.Constant acts i name ((s.world.store.scope i).get? name) := by
  rintro done ⟨rest, rfl⟩
  obtain ⟨s₁, hdone, -⟩ := h.split
  obtain ⟨-, hspares⟩ := hdone.moves hs
  rw [← hdone.world_eq]
  exact hspares.kept i hi hstill

/-- A name that no program assigns has the same value in the global scope throughout. -/
theorem Fresh.constant_global (hw : w.Fresh) {turns : List Turn}
    (h : ∀ turn ∈ turns, ¬ (Term.block turn.program).Assigns name) :
    w.Constant (w.history turns) globalScope name ((w.store.scope globalScope).get? name) := by
  obtain ⟨hgood, s, hpath⟩ := hw.path_history False h
  refine constant_of_path hgood hpath hw.sound.global fun hassignable => ?_
  exact hassignable.global rfl

/-- After a call from the given world, a parameter keeps the value that it was bound to, in
the scope that the call opens. -/
def KeepsArgument (w : World) (f : Closure) (vs : List Value) (later : List Act) (name : String) :
    Prop :=
  ((w.after (.call f vs)).store.scope w.store.scopes.size).opener = some f ∧
    ∃ v, (name, v) ∈ bindArguments f.parameters vs ∧
      (w.after (.call f vs)).Constant later w.store.scopes.size name (some v)

/-- A parameter that the body of the function does not assign keeps the value that it was
bound to by a call. -/
theorem Fresh.keepsArgument (hw : w.Fresh) {turns : List Turn} {before later : List Act}
    {f : Closure} {vs : List Value} (hcall : w.history turns = before ++ .call f vs :: later)
    (hname : name ∈ f.parameters) (hbody : ¬ f.body.Assigns name) :
    (w.perform before).KeepsArgument f vs later name := by
  -- the session is watched up to the call, and then from the call on
  obtain ⟨-, s, hpath⟩ := hw.path_history True fun _ _ _ => trivial
  rw [hcall] at hpath
  obtain ⟨s₁, hbefore, hrest⟩ := hpath.split
  cases hrest with
  | @cons _ s₂ _ _ _ hworld hmoves hlater =>
    rw [hbefore.world_eq] at hworld
    generalize w.perform before = w₁ at hworld
    have hscope : (w₁.after (.call f vs)).store.scope w₁.store.scopes.size = Scope.bindAll
        { outer := w₁.store.chain f.scope, opener := some f }
        (bindArguments f.parameters vs) := scope_extend_size ..
    have hopener : ((w₁.after (.call f vs)).store.scope w₁.store.scopes.size).opener = some f := by
      rw [hscope, Scope.opener_bindAll]
    have hbinds : ((w₁.after (.call f vs)).store.scope w₁.store.scopes.size).binds name = true := by
      rw [Scope.binds_iff, hscope, Scope.mem_names_bindAll, map_fst_bindArguments]
      exact .inr hname
    obtain ⟨v, hv⟩ := Option.isSome_iff_exists.1 hbinds
    refine ⟨hopener, v, ?_, ?_⟩
    · rw [hscope] at hv
      exact Scope.mem_of_get?_bindAll rfl hv
    · rw [← hv, ← hworld]
      rw [← hworld] at hopener
      -- what assigns the name in the scope of a call is the body of that function
      refine constant_of_path hmoves.1 hlater (lt_size_of_opener hopener) fun hassignable => ?_
      exact hbody (hassignable.parameter f hopener hname)

/-- **A name changes only where the text assigns it.**  If no program of a session assigns a
name outside the lambdas that have it as a parameter, its global value stays, at every moment
and after every program.  If the body of a function does not assign a parameter outside inner
lambdas that have it as a parameter as well, the scope of every call of the function keeps the
value that the parameter was bound to, for the rest of the session. -/
theorem binding_kept (hw : w.Fresh) (turns : List Turn) (name : String) :
    ((∀ turn ∈ turns, ¬ (Term.block turn.program).Assigns name) →
      w.Constant (w.history turns) globalScope name ((w.store.scope globalScope).get? name) ∧
      ∀ done rest, turns = done ++ rest →
        ((w.takeAll done).store.scope globalScope).get? name
          = (w.store.scope globalScope).get? name) ∧
    (∀ before f vs later, w.history turns = before ++ .call f vs :: later →
      name ∈ f.parameters → ¬ f.body.Assigns name →
        (w.perform before).KeepsArgument f vs later name) ∧
    ∀ done rest, turns = done ++ rest →
      w.history turns = w.history done ++ (w.takeAll done).history rest ∧
      w.perform (w.history done) = w.takeAll done := by
  refine ⟨fun h => ⟨hw.constant_global h, ?_⟩, ?_, ?_⟩
  · rintro done rest rfl
    rw [← perform_history]
    refine hw.constant_global h _ ⟨(w.takeAll done).history rest, ?_⟩
    rw [history_append]
  · intro before f vs later hcall hname hbody
    exact hw.keepsArgument hcall hname hbody
  · rintro done rest rfl
    exact ⟨history_append w done rest, perform_history w done⟩

/-- A function that returns another one, as a program makes it. -/
def keeper : Closure := ⟨2, ["n"], .lambda [] (.var "n"), globalScope⟩

/-- The function that it returns. -/
def kept : Closure := ⟨3, [], .var "n", 1⟩

/-- A program that keeps a function made in a call, and one that calls it and then fails. -/
def keeperSample : List Turn :=
  [⟨false, 20, [.assign (.var "f") (.lambda ["n"] (.lambda [] (.var "n"))),
      .assign (.var "g") (.call (.var "f") [.boolean true])]⟩,
    ⟨false, 20, [.call (.var "g") [], .var "n"]⟩]

theorem binding_kept_keeperSample :
    World.initial.Fresh ∧
    World.initial.history keeperSample
      = [.make, .bind globalScope "f" (.closure keeper)] ++ .call keeper [.boolean true] ::
        [.make, .bind globalScope "g" (.closure kept), .call kept []] ∧
    (World.initial.perform [.make, .bind globalScope "f" (.closure keeper)]).KeepsArgument keeper
      [.boolean true] [.make, .bind globalScope "g" (.closure kept), .call kept []] "n" ∧
    ((World.initial.takeAll keeperSample).store.scope globalScope).get? "n" = none := by
  have hhistory : World.initial.history keeperSample
      = [.make, .bind globalScope "f" (.closure keeper)] ++ .call keeper [.boolean true] ::
        [.make, .bind globalScope "g" (.closure kept), .call kept []] := by rfl
  have hvar : ∀ x, ¬ (Term.var x).Assigns "n" := fun _ => Term.not_assigns_of_parts_eq_nil rfl
  have htrue : ¬ (Term.boolean true).Assigns "n" := Term.not_assigns_of_parts_eq_nil rfl
  have hunassigned : ∀ turn ∈ keeperSample, ¬ (Term.block turn.program).Assigns "n" := by
    simp [keeperSample, Term.assigns_block, Term.assigns_assign, Term.assigns_lambda,
      Term.assigns_call, hvar, htrue]
  have hbody : ¬ keeper.body.Assigns "n" := by
    rw [keeper, Term.assigns_lambda]
    exact fun h => hvar "n" h.2
  obtain ⟨hglobal, hcalls, -⟩ := binding_kept fresh_initial keeperSample "n"
  obtain ⟨-, hafter⟩ := hglobal hunassigned
  refine ⟨fresh_initial, hhistory, hcalls _ keeper _ _ hhistory (by simp [keeper]) hbody, ?_⟩
  rw [hafter keeperSample [] (List.append_nil _).symm]
  rfl

end World

end Lamlet
