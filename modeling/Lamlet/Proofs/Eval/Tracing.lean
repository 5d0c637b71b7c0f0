import Lamlet.Proofs.Eval.Safety
import Lamlet.Proofs.Token.Splitting

/-!
# Traced runs

A trace adds steps to the log, and a step that tells of a call gives the callee as text.
Number literals are finite or, if they have too many digits, infinite, and infinity is the
one number of a program that has no text.  A call whose callee has such a literal stops a
traced run with a fault of the interpreter, where the untraced run goes on.  Nothing else
tells the two runs apart.

## Main definitions

* `World.untraced` — a world without the steps of its traces.
* `Term.Overflows` — a literal of infinity occurs.
* `traceLockstep` — a traced run of a program beside an untraced one.

## Main results

* `Term.exists_number_of_render_error` — only numbers keep a term from having a text.
* `ParsesTo.overflows_of_render_error` — in a program that was read, only infinity does.
* `run_traced` — **tracing changes nothing, or stops at a callee without a text.**
* `run_traced_overflowSample` — **a program that tracing stops.**
-/

namespace Lamlet

open Store

/-! ### Worlds without traces -/

/-- Whether an event is a step of a trace. -/
def Event.isStep : Event → Bool
  | step _ _ => true
  | _ => false

/-- A world without the steps of its traces. -/
def World.untraced (w : World) : World := { w with log := w.log.filter fun e => !e.isStep }

/-! ### Terms without a text -/

namespace Term

theorem exists_of_renderEach_error {ts : List Term} {fault : Fault}
    (h : renderEach ts = .error fault) : ∃ t ∈ ts, t.render = .error fault := by
  induction ts with
  | nil => cases h
  | cons t ts ih =>
    rw [renderEach] at h
    rcases eq_error_or_of_bind_eq_error h with ht | ⟨s, -, h⟩
    · exact ⟨t, List.mem_cons_self .., ht⟩
    rcases eq_error_or_of_bind_eq_error h with hts | ⟨ss, -, h⟩
    · obtain ⟨u, hu, hrender⟩ := ih hts
      exact ⟨u, List.mem_cons_of_mem _ hu, hrender⟩
    · cases h

theorem exists_of_render_pair_error {l r : Term} {layout : String → String → String} {fault : Fault}
    (h : (do let s ← l.render; let s' ← r.render; return layout s s') = Except.error fault) :
    ∃ u ∈ [l, r], u.render = .error fault := by
  rcases eq_error_or_of_bind_eq_error h with hl | ⟨s, -, h⟩
  · exact ⟨l, by simp, hl⟩
  rcases eq_error_or_of_bind_eq_error h with hr | ⟨s', -, h⟩
  · exact ⟨r, by simp, hr⟩
  · cases h

/-- A term has no text because a term below it has none, unless it is a number. -/
theorem exists_of_render_error {t : Term} {fault : Fault} (h : t.render = .error fault) :
    (∃ x, t = .number x ∧ renderNumber x = .error fault)
      ∨ ∃ u ∈ t.under, u.render = .error fault := by
  cases t with
  | number x =>
    rw [render] at h
    exact .inl ⟨x, rfl, h⟩
  | assign target value =>
    rw [render] at h
    exact .inr (exists_of_render_pair_error h)
  | binary op left right =>
    rw [render] at h
    exact .inr (exists_of_render_pair_error h)
  | conditional condition consequent alternative =>
    rw [render] at h
    rcases eq_error_or_of_bind_eq_error h with h | ⟨s, -, h⟩
    · exact .inr ⟨condition, by simp [under], h⟩
    rcases eq_error_or_of_bind_eq_error h with h | ⟨s', -, h⟩
    · exact .inr ⟨consequent, by simp [under], h⟩
    rcases eq_error_or_of_bind_eq_error h with h | ⟨s'', -, h⟩
    · -- a branch that is left out has a text
      cases hpresent : alternative.isPresent with
      | true => exact .inr ⟨alternative, by simp [under, hpresent], h⟩
      | false =>
        cases alternative with
        | missing => rw [render] at h; cases h
        | _ => cases hpresent
    · cases h
  | lambda parameters body =>
    rw [render] at h
    rcases eq_error_or_of_bind_eq_error h with h | ⟨s, -, h⟩
    · exact .inr ⟨body, by simp [under], h⟩
    · cases h
  | call callee arguments =>
    rw [render] at h
    rcases eq_error_or_of_bind_eq_error h with h | ⟨s, -, h⟩
    · exact .inr ⟨callee, by simp [under], h⟩
    rcases eq_error_or_of_bind_eq_error h with h | ⟨ss, -, h⟩
    · obtain ⟨u, hu, hrender⟩ := exists_of_renderEach_error h
      exact .inr ⟨u, List.mem_cons_of_mem _ hu, hrender⟩
    · cases h
  | block body =>
    rw [render] at h
    rcases eq_error_or_of_bind_eq_error h with h | ⟨ss, -, h⟩
    · exact .inr (exists_of_renderEach_error h)
    · cases h
  | text s => rw [render] at h; cases h
  | boolean b => rw [render] at h; cases h
  | var name => rw [render] at h; cases h
  | missing => rw [render] at h; cases h

/-- **Only numbers keep a term from having a text.** -/
theorem exists_number_of_render_error {t : Term} {fault : Fault} (h : t.render = .error fault) :
    ∃ x, (number x).Occurs t ∧ renderNumber x = .error fault := by
  rcases exists_of_render_error h with ⟨x, rfl, hx⟩ | ⟨u, hu, hrender⟩
  · exact ⟨x, .self, hx⟩
  · have := sizeOf_lt_of_mem_under hu
    obtain ⟨x, hoccurs, hx⟩ := exists_number_of_render_error hrender
    exact ⟨x, .deeper hu hoccurs, hx⟩
  termination_by sizeOf t

/-- A literal of infinity occurs: it has too many digits for a finite number. -/
def Overflows (t : Term) : Prop := (number (.infinity false)).Occurs t

end Term

/-- The fault of a text that needs a literal of infinity; it is one of the interpreter. -/
def Fault.noInfinity : Fault := { cause := .noLiteral "Infinity" }

/-- Number literals denote numbers that have a text, or infinity. -/
theorem Numeral.eq_infinity_of_renderNumber {n : Numeral} {fault : Fault}
    (h : Term.renderNumber n.value = .error fault) :
    n.value = .infinity false ∧ fault = .noInfinity := by
  unfold Numeral.value Decimal.toNumber at h ⊢
  cases hnearest : n.decimal.nearest? with
  | some size =>
    rw [hnearest] at h
    cases h
  | none =>
    rw [hnearest] at h
    exact ⟨rfl, (Except.error.inj h).symm⟩

/-- The numbers of a program that was read are those of number literals. -/
theorem ParsesTo.exists_numeral {source : String} {program : List Term}
    (hparse : ParsesTo source (.ok program)) {x : Number}
    (hx : (Term.number x).Occurs (.block program)) : ∃ n : Numeral, x = n.value := by
  cases hx with
  | @deeper _ e he hoccurs =>
    have htoken : Token.number x ∈ (lex source).tokens.map (·.token) :=
      ((hparse.builtFrom.2 e he).of_occurs hoccurs).here
    obtain ⟨t, ht, hvalue⟩ := List.mem_map.1 htoken
    obtain ⟨lexeme, hlexeme⟩ := exists_lexeme_of_mem_lex ht
    rw [hvalue] at hlexeme
    cases hlexeme with
    | number hplain => exact ⟨_, rfl⟩

/-- **A part of a program that was read has no text only if a literal of infinity occurs in
it.** -/
theorem ParsesTo.overflows_of_render_error {source : String} {program : List Term}
    (hparse : ParsesTo source (.ok program)) {t : Term} (ht : t.Occurs (.block program))
    {fault : Fault} (h : t.render = .error fault) : t.Overflows ∧ fault = .noInfinity := by
  obtain ⟨x, hx, hrender⟩ := Term.exists_number_of_render_error h
  obtain ⟨n, rfl⟩ := hparse.exists_numeral (hx.trans ht)
  obtain ⟨hinfinity, hfault⟩ := n.eq_infinity_of_renderNumber hrender
  rw [hinfinity] at hx
  exact ⟨hx, hfault⟩

/-! ### A traced run beside an untraced one -/

/-- In some call of the program a literal of infinity occurs in the callee. -/
def CalleeOverflows (program : Term) : Prop :=
  ∃ callee arguments, (Term.call callee arguments).Occurs program ∧ callee.Overflows

/-- A traced run of a program that was read beside an untraced one, compared in all but the
steps of the trace.  Only a callee in which a literal of infinity occurs makes the traced
one stop early. -/
def traceLockstep {source : String} {program : List Term}
    (hparse : ParsesTo source (.ok program)) : Lockstep where
  tracing := true
  node t := t.Occurs (.block program)
  compared e := !e.isStep
  stop e := CalleeOverflows (.block program) ∧ e = .fault .noInfinity
  pass _ := True
  event e := e.isStep = false
  undefined _ := trivial
  notAFunction _ := trivial
  notAssignable _ := trivial
  exhausted := trivial
  missing _ := trivial
  operator _ _ := trivial
  output _ := rfl
  hostCall _ := rfl
  step _ _ _ := rfl
  callee {callee arguments fault} _ hcall hrender := by
    have hoccurs : callee.Occurs (.block program) :=
      .trans (.deeper (List.mem_cons_self ..) .self) hcall
    obtain ⟨hoverflows, rfl⟩ := hparse.overflows_of_render_error hoccurs hrender
    exact ⟨⟨callee, arguments, hcall, hoverflows⟩, rfl⟩

theorem World.untraced_eq_self_iff (w : World) :
    w.untraced = w ↔ ∀ e ∈ w.log.toList, e.isStep = false := by
  have hlog : w.untraced = w ↔ (w.log.filter fun e => !e.isStep) = w.log :=
    ⟨congrArg World.log, fun h => by rw [World.untraced, h]⟩
  simp [hlog, Array.filter_eq_self]

section Traced

variable {source : String} {program : List Term} {hparse : ParsesTo source (.ok program)}

theorem traceLockstep_view (w : World) :
    (traceLockstep hparse).view w = w.untraced.log.toList := by
  simp [Lockstep.view, World.untraced, traceLockstep]

/-- Worlds are alike if they are the same without their traces. -/
theorem untraced_of_traceLockstep_alike {w w' : World} (h : (traceLockstep hparse).Alike w w')
    (hw' : (traceLockstep hparse).Good w') : w.untraced = w' := by
  have hview := h.view
  rw [traceLockstep_view, traceLockstep_view, Array.toList_inj] at hview
  calc w.untraced = ⟨w.store, w.untraced.log⟩ := rfl
    _ = ⟨w'.store, w'.untraced.log⟩ := by rw [h.store, hview]
    _ = w' := w'.untraced_eq_self_iff.2 hw'.events

end Traced

/-- **Tracing changes nothing, or stops at a callee without a text.**  A program that was
read gives the same value or fault with a trace and without one; it leaves the same scopes
and, but for the steps of the trace, the same log.  The exception is a program in which a
literal of infinity occurs in some callee: its traced run may stop at that call with a fault
of the interpreter, having done a part of what the untraced run does. -/
theorem run_traced {source : String} {program : List Term}
    (hparse : ParsesTo source (.ok program)) {w : World} (hfresh : w.Fresh)
    (hlog : w.untraced = w) (frames : Nat) :
    ((run true frames (.block program) globalScope w).1
        = (run false frames (.block program) globalScope w).1 ∧
      (run true frames (.block program) globalScope w).2.untraced
        = (run false frames (.block program) globalScope w).2) ∨
    (CalleeOverflows (.block program) ∧
      (run true frames (.block program) globalScope w).1 = .error .noInfinity ∧
      (run true frames (.block program) globalScope w).2.untraced.log.toList
        <+: (run false frames (.block program) globalScope w).2.log.toList) := by
  have hgood : (traceLockstep hparse).Good w :=
    ⟨hfresh.stocked _, w.untraced_eq_self_iff.1 hlog⟩
  have hinStep := Lockstep.inStep_evaluate ((traceLockstep hparse).within_refl frames)
    (.block program) globalScope (Term.everywhere_of_occurs _ fun _ h => h)
  have hleaves := hinStep.keeps w hgood
  -- the traced run is the one that may stop
  have hagree : (traceLockstep hparse).Agree (evaluate true frames (.block program) globalScope w)
      (evaluate false frames (.block program) globalScope w) :=
    hinStep.agree w w ((traceLockstep hparse).alike_refl w) hgood
  rw [run_eq, run_eq]
  generalize evaluate true frames (.block program) globalScope w = traced at hagree
  generalize evaluate false frames (.block program) globalScope w = plain at hagree hleaves
  cases hagree with
  | value halike => exact .inl ⟨rfl, untraced_of_traceLockstep_alike halike hleaves.2.1⟩
  | halt halike => exact .inl ⟨rfl, untraced_of_traceLockstep_alike halike hleaves.2.1⟩
  | stopped hstop hview =>
    -- the text of a callee could not be written
    obtain ⟨hoverflows, rfl⟩ := hstop
    rw [traceLockstep_view, traceLockstep_view,
      (World.untraced_eq_self_iff _).2 hleaves.good.events] at hview
    exact .inr ⟨hoverflows, rfl, hview⟩

/-- A program that calls a function of its own twice, which assigns and writes. -/
def tracedSample : List Term :=
  [.assign (.var "f") (.lambda ["x"] (.call (.var "println") [.assign (.var "x") (.text "a")])),
    .call (.var "f") [], .call (.var "f") [.boolean true]]

theorem run_traced_tracedSample :
    ParsesTo "f = lambda (x) println(x = \"a\"); f(); f(true)" (.ok tracedSample) ∧
    World.initial.Fresh ∧ World.initial.untraced = World.initial ∧
    (run true 20 (.block tracedSample) globalScope .initial).2.log.size = 11 ∧
    (run false 20 (.block tracedSample) globalScope .initial).2.log.size = 4 ∧
    (((run true 20 (.block tracedSample) globalScope .initial).1
        = (run false 20 (.block tracedSample) globalScope .initial).1 ∧
      (run true 20 (.block tracedSample) globalScope .initial).2.untraced
        = (run false 20 (.block tracedSample) globalScope .initial).2) ∨
    (CalleeOverflows (.block tracedSample) ∧
      (run true 20 (.block tracedSample) globalScope .initial).1 = .error .noInfinity ∧
      (run true 20 (.block tracedSample) globalScope .initial).2.untraced.log.toList
        <+: (run false 20 (.block tracedSample) globalScope .initial).2.log.toList)) := by
  have htokens : (lex "f = lambda (x) println(x = \"a\"); f(); f(true)").tokens.map (·.token)
      = [.name "f", .operator "=", .keyword .lambdaWord, .mark .leftParen, .name "x",
        .mark .rightParen, .name "println", .mark .leftParen, .name "x", .operator "=", .text "a",
        .mark .rightParen, .mark .semicolon, .name "f", .mark .leftParen, .mark .rightParen,
        .mark .semicolon, .name "f", .mark .leftParen, .keyword .trueWord, .mark .rightParen] := by
    decide +kernel
  have hparse : ParsesTo "f = lambda (x) println(x = \"a\"); f(); f(true)" (.ok tracedSample) :=
    .of_tokens htokens (by decide +kernel) rfl
  exact ⟨hparse, World.fresh_initial, rfl, by decide +kernel, by decide +kernel,
    run_traced hparse World.fresh_initial rfl 20⟩

/-- A function that returns a number of more than three hundred digits is made and called. -/
def overflowChars : List Char :=
  "(lambda () 1".toList ++ List.replicate 309 '0' ++ ")()".toList

/-- The same as a term: the number is infinite. -/
def overflowSample : Term := .call (.lambda [] (.number (.infinity false))) []

/-- **A program that tracing stops**, with a fault of the interpreter.  Without a trace it
has a value. -/
theorem run_traced_overflowSample :
    ParsesTo (String.ofList overflowChars) (.ok [overflowSample]) ∧
    (run false 20 (.block [overflowSample]) globalScope .initial).1
      = .ok (.number (.infinity false)) ∧
    (run true 20 (.block [overflowSample]) globalScope .initial).1 = .error .noInfinity ∧
    Fault.noInfinity.cause.internal = true := by
  have hlex : lex (String.ofList overflowChars) = Input.lex ⟨overflowChars, .start⟩ := by
    rw [lex, Input.ofString, String.toList_ofList]
  have htokens : (Input.lex ⟨overflowChars, .start⟩).tokens.map (·.token)
      = [.mark .leftParen, .keyword .lambdaWord, .mark .leftParen, .mark .rightParen,
        .number (.infinity false), .mark .rightParen, .mark .leftParen, .mark .rightParen] := by
    decide +kernel
  have htrouble : (Input.lex ⟨overflowChars, .start⟩).trouble = none := by decide +kernel
  rw [← hlex] at htokens htrouble
  exact ⟨.of_tokens htokens htrouble rfl, rfl, rfl, rfl⟩

end Lamlet
