import Lamlet.Proofs.Eval.Watch

/-!
# What every run keeps

A property of worlds that the single steps of evaluation keep is kept by every run,
however it ends.  A *discipline* says which worlds are good, how they may change, which
terms may be evaluated where, and which values may appear; it answers for each step of
an evaluation, and the induction over evaluation is done here once for all disciplines.

## Main definitions

* `Discipline` — the obligations, one for each step.
* `Discipline.Keeps` — every outcome of a computation is as the discipline demands.

## Main results

* `Discipline.keeps_watch` — **evaluation keeps every discipline.**
* `Discipline.moves_observe` — the same for whole runs.
-/

namespace Lamlet

/-! ### Variables -/

theorem Run.readVariable_apply (scope : ScopeId) (name : String) (w : World) :
    Run.readVariable scope name w = match w.store.get? scope name with
      | some value => .ok value w
      | none => .error (.fault { cause := .undefinedVariable name }) w := by
  show (match w.store.get? scope name with
    | some value => (pure value : Run Value)
    | none => Run.fail (.undefinedVariable name)) w = _
  cases w.store.get? scope name with
  | some value => rfl
  | none => rfl

theorem Run.assignVariable_apply (scope : ScopeId) (name : String) (value : Value) (w : World) :
    Run.assignVariable scope name value w = match w.store.target? scope name with
      | some i => .ok () { w with store := w.store.define i name value }
      | none => .error (.fault { cause := .undefinedVariable name }) w := by
  show (match w.store.target? scope name with
    | some i => (modify fun w : World => { w with store := w.store.define i name value } : Run Unit)
    | none => Run.fail (.undefinedVariable name)) w = _
  cases w.store.target? scope name with
  | some i => rfl
  | none => rfl

/-! ### Operators -/

/-- An operator gives one of its operands, or a number or a truth value. -/
theorem Operator.eq_or_plain_of_apply {op : Operator} {l r v : Value}
    (h : op.apply l r = .ok v) : v = l ∨ v = r ∨ v.identity? = none := by
  unfold Operator.apply at h
  split at h
  · next f hf =>
    -- an operator on numbers gives a number or a truth value
    cases hx : op.operand l with
    | error fault =>
      rw [hx] at h
      cases h
    | ok x =>
      cases hy : op.operand r with
      | error fault =>
        rw [hx, hy] at h
        cases h
      | ok y =>
        rw [hx, hy] at h
        obtain rfl := Except.ok.inj h
        refine .inr (.inr ?_)
        cases op <;> simp only [Operator.numeric?, Option.some.injEq, reduceCtorEq] at hf <;>
          subst hf <;> rfl
  · -- the others take any operands; of them `&&` and `||` give one back
    split at h
    · obtain rfl := Except.ok.inj h
      split
      · exact .inr (.inl rfl)
      · exact .inl rfl
    · obtain rfl := Except.ok.inj h
      split
      · exact .inl rfl
      · exact .inr (.inl rfl)
    · obtain rfl := Except.ok.inj h
      exact .inr (.inr rfl)
    · obtain rfl := Except.ok.inj h
      exact .inr (.inr rfl)
    · cases h

/-! ### Host functions -/

/-- A host function returns one of its arguments, or a truth value. -/
theorem Run.mem_or_plain_hostResult (f : HostFunction) (vs : List Value) :
    Run.hostResult f vs ∈ vs ∨ (Run.hostResult f vs).identity? = none := by
  unfold Run.hostResult
  split
  · cases vs with
    | nil => exact .inr rfl
    | cons v vs => exact .inl (List.mem_cons_self ..)
  · exact .inr rfl

/-! ### Disciplines -/

/-- A discipline of evaluation. -/
structure Discipline where
  /-- The worlds that may occur. -/
  good : Watched → Prop
  /-- How they may change. -/
  step : Watched → Watched → Prop
  /-- The terms that may be evaluated at a standpoint. -/
  fit : Watched → Standpoint → Term → Prop
  /-- The values that may appear. -/
  sound : Watched → Value → Prop
  refl (s : Watched) : step s s
  trans {s s' s'' : Watched} : step s s' → step s' s'' → step s s''
  fit_mono {s s' : Watched} {p : Standpoint} {t : Term} : step s s' → fit s p t → fit s' p t
  sound_mono {s s' : Watched} {v : Value} : step s s' → sound s v → sound s' v
  /-- The parts of a term may be evaluated where it is, except for the body of a lambda. -/
  part {s : Watched} {p : Standpoint} {t u : Term} {i : Nat} :
    t.isLambda = false → t.parts[i]? = some u → fit s p t → fit s (p.part i) u
  /-- Only functions are subject to the discipline. -/
  plain (s : Watched) {v : Value} : v.identity? = none → sound s v
  emit {s : Watched} (event : Event) : good s → good (s.emit event) ∧ step s (s.emit event)
  look {s : Watched} {p : Standpoint} {t : Term} {name : String} :
    good s → fit s p t → t.mentions name → good (s.look p name) ∧ step s (s.look p name)
  read {s : Watched} {p : Standpoint} {name : String} {v : Value} :
    good s → fit s p (.var name) → s.world.store.get? p.scope name = some v → sound s v
  write {s : Watched} {p : Standpoint} {name : String} {value : Term} {i : ScopeId} {v : Value} :
    good s → fit s p (.assign (.var name) value) → sound s v →
    s.world.store.target? p.scope name = some i →
    good (s.define i name v) ∧ step s (s.define i name v)
  make {s : Watched} {p : Standpoint} {parameters : List String} {body : Term} :
    good s → fit s p (.lambda parameters body) →
    good (s.make p) ∧ step s (s.make p)
      ∧ sound (s.make p) (.closure ⟨s.world.store.fresh, parameters, body, p.scope⟩)
  enter {s : Watched} {f : Closure} {vs : List Value} :
    good s → sound s (.closure f) → (∀ v ∈ vs, sound s v) →
    good (s.enter f vs) ∧ step s (s.enter f vs)
      ∧ fit (s.enter f vs) ((s.enter f vs).body f s.world.store.scopes.size) f.body

namespace Discipline

variable (D : Discipline) {α β : Type}

/-! ### Computations that keep a discipline -/

/-- A change from one good world to another. -/
def Moves (s s' : Watched) : Prop := D.good s' ∧ D.step s s'

/-- Every outcome of a computation is a good world, and a value comes with `Q`. -/
def Keeps (y : Watch α) (s : Watched) (Q : Watched → α → Prop) : Prop :=
  match y s with
  | .ok a s' => D.Moves s s' ∧ Q s' a
  | .error _ s' => D.Moves s s'

variable {D} {s : Watched}

theorem moves_refl (hs : D.good s) : D.Moves s s := ⟨hs, D.refl s⟩

theorem Moves.trans {s' s'' : Watched} (h : D.Moves s s') (h' : D.Moves s' s'') : D.Moves s s'' :=
  ⟨h'.1, D.trans h.2 h'.2⟩

theorem keeps_pure (hs : D.good s) {Q : Watched → α → Prop} {a : α} (ha : Q s a) :
    D.Keeps (pure a) s Q :=
  ⟨moves_refl hs, ha⟩

theorem keeps_throw (hs : D.good s) {Q : Watched → α → Prop} (e : Halt) :
    D.Keeps (throw e) s Q :=
  moves_refl hs

theorem keeps_bind {y : Watch α} {g : α → Watch β} {Q : Watched → α → Prop}
    {R : Watched → β → Prop} (hy : D.Keeps y s Q)
    (hg : ∀ a s', D.good s' → D.step s s' → Q s' a → D.Keeps (g a) s' R) :
    D.Keeps (y >>= g) s R := by
  unfold Keeps at hy ⊢
  show match EStateM.bind y g s with
    | .ok a s' => D.Moves s s' ∧ R s' a
    | .error _ s' => D.Moves s s'
  unfold EStateM.bind
  cases hfirst : y s with
  | error e s' =>
    rw [hfirst] at hy
    exact hy
  | ok a s' =>
    rw [hfirst] at hy
    obtain ⟨hmoves, ha⟩ := hy
    have hsecond := hg a s' hmoves.1 hmoves.2 ha
    unfold Keeps at hsecond
    -- the second computation starts where the first one ended
    simp only
    cases hlast : g a s' with
    | ok b s'' =>
      rw [hlast] at hsecond
      exact ⟨hmoves.trans hsecond.1, hsecond.2⟩
    | error e s'' =>
      rw [hlast] at hsecond
      exact hmoves.trans hsecond

/-- A change of the observed world as a computation. -/
theorem keeps_modify {note : Watched → Watched} (h : D.Moves s (note s)) :
    D.Keeps (modify note) s fun s' _ => s' = note s :=
  ⟨h, rfl⟩

/-! ### The single steps -/

theorem keeps_fail (hs : D.good s) {Q : Watched → α → Prop} (cause : Cause) :
    D.Keeps (Watch.lift (Run.fail cause)) s Q :=
  moves_refl hs

theorem keeps_ofExcept (hs : D.good s) {Q : Watched → α → Prop} {x : Except Fault α}
    (h : ∀ a, x = .ok a → Q s a) : D.Keeps (Watch.lift (Run.ofExcept x)) s Q := by
  cases x with
  | ok a => exact ⟨moves_refl hs, h a rfl⟩
  | error fault => exact moves_refl hs

theorem keeps_emit (hs : D.good s) (event : Event) :
    D.Keeps (Watch.lift (Run.emit event)) s fun _ _ => True :=
  ⟨D.emit event hs, trivial⟩

theorem keeps_readVariable (hs : D.good s) {p : Standpoint} {name : String}
    (hfit : D.fit s p (.var name)) :
    D.Keeps (Watch.lift (Run.readVariable p.scope name)) s D.sound := by
  rw [Keeps, Watch.lift, Run.readVariable_apply]
  cases hget : s.world.store.get? p.scope name with
  | none => exact moves_refl hs
  | some v => exact ⟨moves_refl hs, D.read hs hfit hget⟩

theorem keeps_assignVariable (hs : D.good s) {p : Standpoint} {name : String} {value : Term}
    {v : Value} (hfit : D.fit s p (.assign (.var name) value)) (hv : D.sound s v) :
    D.Keeps (Watch.lift (Run.assignVariable p.scope name v)) s fun _ _ => True := by
  rw [Keeps, Watch.lift, Run.assignVariable_apply]
  cases htarget : s.world.store.target? p.scope name with
  | none => exact moves_refl hs
  | some i => exact ⟨D.write hs hfit hv htarget, trivial⟩

theorem keeps_traceAssign (hs : D.good s) (tracing : Bool) (name : String) (v : Value) :
    D.Keeps (Watch.lift (Run.traceAssign tracing name v)) s fun _ _ => True := by
  cases tracing with
  | false => exact ⟨moves_refl hs, trivial⟩
  | true => exact keeps_emit hs _

theorem keeps_traceCall (hs : D.good s) (tracing : Bool) (callee : Term) (vs : List Value) :
    D.Keeps (Watch.lift (Run.traceCall tracing callee vs)) s fun _ _ => True := by
  cases tracing with
  | false => exact ⟨moves_refl hs, trivial⟩
  | true =>
    rw [Run.traceCall, if_pos rfl, Watch.lift_bind]
    refine keeps_bind (keeps_ofExcept (Q := fun _ _ => True) hs fun _ _ => trivial) ?_
    intro text s' hs' _ _
    exact keeps_emit hs' _

theorem sound_of_mem_bindArguments {ps : List String} {vs : List Value}
    (hvs : ∀ v ∈ vs, D.sound s v) {b : String × Value} (hb : b ∈ bindArguments ps vs) :
    D.sound s b.2 := by
  rcases eq_false_or_mem_of_mem_bindArguments hb with hfalse | hmem
  · rw [hfalse]
    exact D.plain s rfl
  · exact hvs _ hmem

theorem keeps_callHost (hs : D.good s) (f : HostFunction) {vs : List Value}
    (hvs : ∀ v ∈ vs, D.sound s v) : D.Keeps (Watch.lift (Run.callHost f vs)) s D.sound := by
  have hresult : D.sound s (Run.hostResult f vs) :=
    (Run.mem_or_plain_hostResult f vs).elim (hvs _) (D.plain s)
  rw [Run.callHost, Watch.lift_bind]
  refine keeps_bind (keeps_emit hs _) ?_
  intro _ s' hs' hstep _
  -- some host functions write a text before they return
  cases Run.hostOutput f vs with
  | none => exact keeps_pure hs' (D.sound_mono hstep hresult)
  | some text =>
    show D.Keeps (Watch.lift (Run.emit (.output text) >>= fun _ => _)) s' D.sound
    rw [Watch.lift_bind]
    refine keeps_bind (keeps_emit hs' _) ?_
    intro _ s'' hs'' hstep' _
    exact keeps_pure hs'' (D.sound_mono (D.trans hstep hstep') hresult)

theorem sound_of_apply {op : Operator} {l r v : Value} (hl : D.sound s l) (hr : D.sound s r)
    (h : op.apply l r = .ok v) : D.sound s v := by
  rcases Operator.eq_or_plain_of_apply h with rfl | rfl | hplain
  · exact hl
  · exact hr
  · exact D.plain s hplain

/-! ### Rows and calls -/

section Items

variable {item : Term → Standpoint → Watch Value}
  (hitem : ∀ {s p t}, D.good s → D.fit s p t → D.Keeps (item t p) s D.sound)

include hitem

theorem keeps_each {p : Standpoint} {i : Nat} {ts : List Term} (hs : D.good s)
    (hfit : ∀ j t, ts[j]? = some t → D.fit s (p.part (i + j)) t) :
    D.Keeps (Watch.each item p i ts) s fun s' vs => ∀ v ∈ vs, D.sound s' v := by
  induction ts generalizing i s with
  | nil => exact keeps_pure hs (by simp)
  | cons t ts ih =>
    refine keeps_bind (hitem hs (hfit 0 t rfl)) ?_
    intro v s₁ hs₁ hstep₁ hv
    -- the other terms are still fit after the first one was evaluated
    have hrest : ∀ j u, ts[j]? = some u → D.fit s₁ (p.part (i + 1 + j)) u := by
      intro j u hu
      have hlater := D.fit_mono hstep₁ (hfit (j + 1) u hu)
      rwa [Nat.add_comm j 1, ← Nat.add_assoc] at hlater
    refine keeps_bind (ih hs₁ hrest) ?_
    intro vs s₂ hs₂ hstep₂ hvs
    refine keeps_pure hs₂ ?_
    intro u hu
    rcases List.mem_cons.1 hu with rfl | hu
    · exact D.sound_mono hstep₂ hv
    · exact hvs u hu

theorem keeps_last {p : Standpoint} {i : Nat} {v : Value} {ts : List Term} (hs : D.good s)
    (hv : D.sound s v) (hfit : ∀ j t, ts[j]? = some t → D.fit s (p.part (i + j)) t) :
    D.Keeps (Watch.last item p i v ts) s D.sound := by
  induction ts generalizing i s v with
  | nil => exact keeps_pure hs hv
  | cons t ts ih =>
    refine keeps_bind (hitem hs (hfit 0 t rfl)) ?_
    intro u s₁ hs₁ hstep₁ hu
    refine ih hs₁ hu ?_
    intro j t' ht'
    have hlater := D.fit_mono hstep₁ (hfit (j + 1) t' ht')
    rwa [Nat.add_comm j 1, ← Nat.add_assoc] at hlater

theorem keeps_invoke {f : Value} {vs : List Value} (hs : D.good s) (hf : D.sound s f)
    (hvs : ∀ v ∈ vs, D.sound s v) : D.Keeps (Watch.invoke item f vs) s D.sound := by
  cases f with
  | closure f =>
    obtain ⟨hgood, hstep, hbody⟩ := D.enter hs hf hvs
    -- the new scope is the step that enters the call, and the body is fit from there on
    have hopen : D.Keeps (Watch.lift (Run.openScope f vs)) s
        fun s' scope => s' = s.enter f vs ∧ scope = s.world.store.scopes.size :=
      ⟨⟨hgood, hstep⟩, rfl, rfl⟩
    refine keeps_bind hopen ?_
    rintro scope s' - - ⟨rfl, rfl⟩
    exact hitem hgood hbody
  | host f =>
    refine keeps_callHost hs f ?_
    intro v hv
    obtain ⟨b, hb, rfl⟩ := List.mem_map.1 hv
    exact sound_of_mem_bindArguments hvs hb
  | number x => exact keeps_fail hs _
  | text x => exact keeps_fail hs _
  | boolean x => exact keeps_fail hs _

end Items

/-! ### Evaluation -/

/-- **Evaluation keeps every discipline**, whether it ends with a value, with a fault, or because
no frame is left.  A discipline says what single steps do: to read and to write a variable, to
make a function, to enter one.  Here it follows for whole evaluations, by induction on the frames,
so that an invariant is proved by stating it as a discipline and by checking these steps. -/
theorem keeps_watch (tracing : Bool) (frames : Nat) {s : Watched} {p : Standpoint} {term : Term}
    (hs : D.good s) (hfit : D.fit s p term) :
    D.Keeps (watch tracing frames term p) s D.sound := by
  -- a call takes two frames at once, so the frame right below is not enough
  induction frames using Nat.strongRecOn generalizing s p term with
  | ind frames ih =>
    cases frames with
    | zero => exact keeps_throw hs _
    | succ frames =>
      have ih' := fun {s p t} => @ih frames (Nat.lt_succ_self _) s p t
      cases term with
      | number x => exact keeps_pure hs (D.plain s rfl)
      | text x => exact keeps_pure hs (D.plain s rfl)
      | boolean x => exact keeps_pure hs (D.plain s rfl)
      | var name =>
        have hlook := D.look hs hfit (rfl : (Term.var name).mentions name)
        refine keeps_bind (keeps_modify hlook) ?_
        rintro - s₁ hs₁ hstep₁ rfl
        exact keeps_readVariable hs₁ (D.fit_mono hstep₁ hfit)
      | assign target value =>
        cases target with
        | var name =>
          refine keeps_bind (ih' hs (D.part rfl rfl hfit)) ?_
          intro v s₁ hs₁ hstep₁ hv
          have hfit₁ := D.fit_mono hstep₁ hfit
          have hlook := D.look hs₁ hfit₁ (rfl : (Term.assign (.var name) value).mentions name)
          refine keeps_bind (keeps_modify hlook) ?_
          rintro - s₂ hs₂ hstep₂ rfl
          refine keeps_bind (keeps_assignVariable hs₂ (D.fit_mono hstep₂ hfit₁)
            (D.sound_mono hstep₂ hv)) ?_
          intro _ s₃ hs₃ hstep₃ _
          refine keeps_bind (keeps_traceAssign hs₃ tracing name v) ?_
          intro _ s₄ hs₄ hstep₄ _
          exact keeps_pure hs₄ (D.sound_mono (D.trans hstep₂ (D.trans hstep₃ hstep₄)) hv)
        | _ => exact keeps_fail hs _
      | binary op left right =>
        refine keeps_bind (ih' hs (D.part rfl rfl hfit)) ?_
        intro l s₁ hs₁ hstep₁ hl
        refine keeps_bind (ih' hs₁ (D.fit_mono hstep₁ (D.part rfl rfl hfit))) ?_
        intro r s₂ hs₂ hstep₂ hr
        exact keeps_ofExcept hs₂ fun v hv => sound_of_apply (D.sound_mono hstep₂ hl) hr hv
      | conditional condition consequent alternative =>
        refine keeps_bind (ih' hs (D.part rfl rfl hfit)) ?_
        intro c s₁ hs₁ hstep₁ _
        split
        · exact ih' hs₁ (D.fit_mono hstep₁ (D.part rfl rfl hfit))
        · split
          · exact ih' hs₁ (D.fit_mono hstep₁ (D.part rfl rfl hfit))
          · exact keeps_pure hs₁ (D.plain s₁ rfl)
      | lambda parameters body =>
        -- the origin is recorded and the function made in one step of the discipline
        obtain ⟨hgood, hstep, hsound⟩ := D.make hs hfit
        exact ⟨⟨hgood, hstep⟩, hsound⟩
      | call callee arguments =>
        rw [watch]
        refine keeps_bind (ih' hs (D.part rfl rfl hfit)) ?_
        intro f s₁ hs₁ hstep₁ hf
        cases frames with
        | zero => exact keeps_throw hs₁ _
        | succ inner =>
          have hinner := fun {s p t} => @ih inner (by omega) s p t
          have harguments : ∀ j t, arguments[j]? = some t → D.fit s₁ (p.part (1 + j)) t := by
            intro j t ht
            refine D.fit_mono hstep₁ (D.part rfl ?_ hfit)
            rw [Nat.add_comm]
            exact ht
          refine keeps_bind (keeps_each hinner hs₁ harguments) ?_
          intro vs s₂ hs₂ hstep₂ hvs
          refine keeps_bind (keeps_traceCall hs₂ tracing callee vs) ?_
          intro _ s₃ hs₃ hstep₃ _
          refine keeps_invoke hinner hs₃ (D.sound_mono (D.trans hstep₂ hstep₃) hf) ?_
          exact fun v hv => D.sound_mono hstep₃ (hvs v hv)
      | block body =>
        refine keeps_last ih' hs (D.plain s rfl) fun j t ht => ?_
        rw [Nat.zero_add]
        exact D.part (t := .block body) rfl ht hfit
      | missing => exact keeps_fail hs _

/-- What a discipline says about whole runs. -/
theorem moves_observe (tracing : Bool) (frames : Nat) (term : Term) (p : Standpoint)
    {s : Watched} (hs : D.good s) (hfit : D.fit s p term) :
    D.Moves s (observe tracing frames term p s).2 ∧
    ∀ v, (observe tracing frames term p s).1 = .ok v →
      D.sound (observe tracing frames term p s).2 v := by
  have hkeeps := keeps_watch tracing frames hs hfit
  unfold Keeps at hkeeps
  unfold observe
  cases hrun : watch tracing frames term p s with
  | ok v s' =>
    rw [hrun] at hkeeps
    refine ⟨hkeeps.1, fun u hu => ?_⟩
    obtain rfl := Except.ok.inj hu
    exact hkeeps.2
  | error e s' =>
    rw [hrun] at hkeeps
    cases e with
    | fault fault => exact ⟨hkeeps, fun u hu => nomatch hu⟩
    | exhausted => exact ⟨hkeeps, fun u hu => nomatch hu⟩

end Discipline

end Lamlet
