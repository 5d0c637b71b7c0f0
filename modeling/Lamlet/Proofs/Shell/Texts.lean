import Lamlet.Shell

/-!
# Texts in a session

The shell has a text read and run, and shows what comes of it.  A session that is idle before,
where nothing waits to be run, no value is left and faults are not fatal, is idle again
afterwards, and the text ends in one of three ways.

## Main definitions

* `Session.workingOn` — a session while it works on a text.
* `Session.Ends` — what a text comes to.
* `Session.Idle` — a session between two texts.
* `Session.Answers` — what is left of a text after it has been answered.

## Main results

* `Session.run_parse`, `Session.run_add`, `Session.run_runProgram`, `Session.run_runPending` —
  the actions on a session, one by one.
* `Session.ends_runText` — **a text cannot be read, or fails, or has a value.**
* `Session.Idle.answers_runGuarded` — the shell goes on after every text.
* `Session.Idle.of_answers` — idle sessions stay idle.
-/

namespace Lamlet

open Store

/-! ### Actions on a session -/

/-- Only what is registered last for a file counts. -/
theorem Reporter.register_register (r : Reporter) (path : String) (source source' : Option String) :
    (r.register path source).register path source' = r.register path source' := by
  simp only [register, Assoc.put_put]

namespace Session

/-- The session while it works on a text, or on none. -/
def workingOn (s : Session) (source : Option String) : Session :=
  { s with reporter := s.reporter.register s.path source }

section

variable (s : Session) (source : Option String)

@[simp] theorem workingOn_frames : (s.workingOn source).frames = s.frames := rfl

@[simp] theorem workingOn_world : (s.workingOn source).world = s.world := rfl

@[simp] theorem workingOn_tracing :
    (s.workingOn source).reporter.tracing = s.reporter.tracing := rfl

@[simp] theorem workingOn_fatal : (s.workingOn source).reporter.fatal = s.reporter.fatal := rfl

theorem workingOn_workingOn (source' : Option String) :
    (s.workingOn source).workingOn source' = s.workingOn source' := by
  simp only [workingOn, Reporter.register_register]

theorem run_registerSource : (registerSource source).run s = .ok () (s.workingOn source) := rfl

end

theorem run_discard {α : Type} (action : Action α) (s : Session) :
    (discard action).run s =
      match action.run s with
      | .ok _ s => .ok () s
      | .error interruption s => .error interruption s := by
  show EStateM.map (fun _ => ()) action s = _
  unfold EStateM.map EStateM.run
  cases action s <;> rfl

theorem run_parse (s : Session) (source : String) :
    (parse source).run s =
      match Lamlet.parse s.frames source with
      | .error failure => .error failure.interruption (s.workingOn source)
      | .ok program => .ok program (s.workingOn source) := by
  simp only [parse, EStateM.run_bind, run_registerSource, EStateM.run_get, workingOn_frames]
  cases Lamlet.parse s.frames source <;> rfl

theorem run_add (s : Session) (source : String) :
    (add source).run s =
      match Lamlet.parse s.frames source with
      | .error failure => .error failure.interruption (s.workingOn source)
      | .ok program =>
        .ok program { s.workingOn source with pending := s.pending ++ [(source, program)] } := by
  rw [add, EStateM.run_bind, run_parse]
  cases Lamlet.parse s.frames source <;> rfl

theorem run_runProgram (s : Session) (source : String) (program : List Term) :
    (runProgram source program).run s =
      match run s.reporter.tracing s.frames (.block program) globalScope s.world with
      | (.error fault, w) => .error (.fault fault) { s.workingOn source with world := w }
      | (.ok value, w) =>
        .ok () { s.workingOn source with world := w, results := s.results ++ [value] } := by
  simp only [runProgram, EStateM.run_bind, run_registerSource, EStateM.run_modifyGet,
    workingOn_tracing, workingOn_frames, workingOn_world]
  rcases run s.reporter.tracing s.frames (.block program) globalScope s.world with ⟨outcome, w⟩
  cases outcome <;> rfl

/-- A queue with one program in it. -/
theorem run_runPending {s : Session} (h : s.pending = []) (source : String) (program : List Term) :
    runPending.run { s with pending := [(source, program)] } =
      match (runProgram source program).run s with
      | .ok _ s => .ok () (s.workingOn none)
      | .error interruption s => .error interruption s := by
  have hcleared : ({ s with pending := [] } : Session) = s := by rw [← h]
  simp only [runPending, EStateM.run_bind, EStateM.run_modifyGet, hcleared, runEach]
  cases (runProgram source program).run s <;> rfl

/-! ### What a text comes to -/

/-- What a text comes to. -/
inductive Ends (s : Session) (source : String) :
    EStateM.Result Interruption Session Unit → Prop where
  /-- It is no program. -/
  | unread {failure : ParseFailure} : Lamlet.parse s.frames source = .error failure →
      Ends s source (.error failure.interruption (s.workingOn source))
  /-- It is a program that fails. -/
  | failed {program : List Term} {fault : Fault} {w : World} :
      Lamlet.parse s.frames source = .ok program →
      run s.reporter.tracing s.frames (.block program) globalScope s.world = (.error fault, w) →
      Ends s source (.error (.fault fault) { s.workingOn source with world := w })
  /-- It is a program with a value. -/
  | valued {program : List Term} {value : Value} {w : World} :
      Lamlet.parse s.frames source = .ok program →
      run s.reporter.tracing s.frames (.block program) globalScope s.world = (.ok value, w) →
      Ends s source (.ok () { s.workingOn none with world := w, results := s.results ++ [value] })

/-- A text in a session where nothing waits to be run. -/
theorem ends_runText {s : Session} (h : s.pending = []) (source : String) :
    s.Ends source ((Shell.runText source).run s) := by
  rw [Shell.runText, EStateM.run_bind, run_discard, run_add]
  cases hparse : Lamlet.parse s.frames source with
  | error failure => exact .unread hparse
  | ok program =>
    have hworking : (s.workingOn source).pending = [] := h
    -- the text is the only one in the queue
    simp only [h, List.nil_append]
    rw [run_runPending hworking, run_runProgram, workingOn_workingOn, workingOn_tracing,
      workingOn_frames, workingOn_world]
    cases hrun : run s.reporter.tracing s.frames (.block program) globalScope s.world with
    | mk outcome w =>
      cases outcome with
      | error fault => exact .failed hparse hrun
      | ok value => simpa only [workingOn, Reporter.register_register] using Ends.valued hparse hrun

/-! ### Idle sessions -/

/-- Nothing waits to be run, no value is left, and faults are not fatal. -/
structure Idle (s : Session) : Prop where
  pending : s.pending = []
  results : s.results = []
  fatal : s.reporter.fatal = false

theorem idle_start (reporter : Reporter) (path : String) (frames : Nat) :
    (start reporter path true frames).Idle :=
  ⟨rfl, rfl, Bool.and_false _⟩

/-- What is left of a text after its value, or the message about what went wrong, has been
shown. -/
inductive Answers (s : Session) (source : String) : Session → Prop where
  /-- Nothing was run. -/
  | unread {failure : ParseFailure} : Lamlet.parse s.frames source = .error failure →
      Answers s source ((s.workingOn source).notify
        ((s.workingOn source).reporter.settle failure.interruption).1)
  /-- The world is as the program left it when it failed. -/
  | failed {program : List Term} {fault : Fault} {w : World} :
      Lamlet.parse s.frames source = .ok program →
      run s.reporter.tracing s.frames (.block program) globalScope s.world = (.error fault, w) →
      Answers s source { s.workingOn source with
        world := w.notify ((s.workingOn source).reporter.report fault) }
  /-- The value shown is that of the program. -/
  | valued {program : List Term} {value : Value} {w : World} :
      Lamlet.parse s.frames source = .ok program →
      run s.reporter.tracing s.frames (.block program) globalScope s.world = (.ok value, w) →
      Answers s source { s.workingOn none with world := w.notify (value.shown ++ "\n") }

namespace Idle

variable {s t : Session} {source : String} (h : s.Idle)

include h

/-- Whatever interrupts a text is settled with a message. -/
theorem settle_of_ends {interruption : Interruption}
    (hends : s.Ends source (.error interruption t)) :
    (t.reporter.settle interruption).2 = .resumed := by
  have hafter : (s.workingOn source).reporter.afterReport = .resumed := if_neg (by simp [h.fatal])
  cases hends with
  | @unread failure _ => cases failure <;> exact hafter
  | failed _ _ => exact hafter

/-- The shell goes on after every text. -/
theorem answers_runGuarded (source : String) :
    (Shell.runGuarded source s).1 = false ∧ s.Answers source (Shell.runGuarded source s).2 := by
  have hends := ends_runText h.pending source
  unfold Shell.runGuarded
  generalize (Shell.runText source).run s = r at hends
  cases r with
  | error interruption t =>
    have hsettled := h.settle_of_ends hends
    refine ⟨by simp [hsettled], ?_⟩
    cases hends with
    | unread hparse => exact .unread hparse
    | failed hparse hrun => exact .failed hparse hrun
  | ok _ t =>
    refine ⟨rfl, ?_⟩
    cases hends with
    | valued hparse hrun =>
      -- the value just found is the only one there
      have hanswers := Answers.valued hparse hrun
      simpa [Shell.showResult, pop?, h.results, notify, workingOn] using hanswers

theorem of_answers (hanswers : s.Answers source t) : t.Idle := by
  cases hanswers <;> exact ⟨h.pending, h.results, h.fatal⟩

end Idle

namespace Answers

variable {s t : Session} {source : String} (h : s.Answers source t)

include h

theorem tracing_eq : t.reporter.tracing = s.reporter.tracing := by
  cases h <;> rfl

theorem world_of_unread {failure : ParseFailure}
    (hfailure : Lamlet.parse s.frames source = .error failure) :
    t.world = s.world.notify
      ((s.workingOn source).reporter.settle failure.interruption).1 := by
  cases h with
  | unread hparse =>
    obtain rfl := Except.error.inj (hparse.symm.trans hfailure)
    rfl
  | failed hparse _ => simp [hparse] at hfailure
  | valued hparse _ => simp [hparse] at hfailure

theorem world_of_failed {program : List Term} {fault : Fault} {w : World}
    (hprogram : Lamlet.parse s.frames source = .ok program)
    (hfault : run s.reporter.tracing s.frames (.block program) globalScope s.world
      = (.error fault, w)) :
    t.world = w.notify ((s.workingOn source).reporter.report fault) := by
  cases h with
  | unread hparse => simp [hparse] at hprogram
  | failed hparse hrun =>
    obtain rfl := Except.ok.inj (hparse.symm.trans hprogram)
    obtain ⟨hsame, rfl⟩ := Prod.mk.inj (hrun.symm.trans hfault)
    obtain rfl := Except.error.inj hsame
    rfl
  | valued hparse hrun =>
    obtain rfl := Except.ok.inj (hparse.symm.trans hprogram)
    simp [hrun] at hfault

theorem world_of_valued {program : List Term} {value : Value} {w : World}
    (hprogram : Lamlet.parse s.frames source = .ok program)
    (hvalue : run s.reporter.tracing s.frames (.block program) globalScope s.world
      = (.ok value, w)) :
    t.world = w.notify (value.shown ++ "\n") := by
  cases h with
  | unread hparse => simp [hparse] at hprogram
  | failed hparse hrun =>
    obtain rfl := Except.ok.inj (hparse.symm.trans hprogram)
    simp [hrun] at hvalue
  | valued hparse hrun =>
    obtain rfl := Except.ok.inj (hparse.symm.trans hprogram)
    obtain ⟨hsame, rfl⟩ := Prod.mk.inj (hrun.symm.trans hvalue)
    obtain rfl := Except.ok.inj hsame
    rfl

end Answers

end Session

end Lamlet
