import Mathlib.Data.List.Induction
import Lamlet.Proofs.Eval.Confinement
import Lamlet.Proofs.Shell.Texts

/-!
# The shell, line by line

A line completes a text, which is then run, or adds to a text that is held back, or is no
piece of a program at all.  Between two lines the session is idle, so that each line finds
what it needs, and none can bring the shell down.

## Main definitions

* `Command.word` — the word that decides what a line asks for.
* `Shell.piece?`, `Shell.completed?` — the piece of a program in a line, and the text that it
  completes.
* `Shell.after` — the shell after several lines.
* `Shell.Takes` — what a line can do to the shell.
* `Shell.Raises`, `Shell.Survives` — what a line does not do to the shell, and what it does.

## Main results

* `Command.ends_iff` — the words that end the shell.
* `Shell.takes_execute` — the kinds of lines.
* `Shell.Takes.keeps` — what a line keeps of the session.
* `Shell.after_induction` — what every line keeps holds after all lines.
* `Shell.idle_after` — the session is idle after every line.
* `Shell.survives_after` — **the shell survives every line.**
-/

namespace Lamlet

open Text Store

/-! ### Kinds of lines -/

/-- The word that a line starts with, blanks before it aside. -/
def Command.word (line : String) : String :=
  String.ofList ((trim line.toList).takeWhile isCommandChar)

namespace Command

/-- The words that end the shell. -/
theorem ends_iff (line : String) :
    ofLine line = .exit ∨ ofLine line = .endOfInput ↔ word line = "exit" ∨ word line = "EOF" := by
  unfold ofLine
  split
  · next hblank =>
    have hword : word line = "" := by rw [word, hblank]; rfl
    simp [hword]
  · next c cs hline =>
    have hword : word line = String.ofList ((c :: cs).takeWhile isCommandChar) := by
      rw [word, hline]
    by_cases hquestion : c = '?'
    · -- a question mark is not part of a word
      have hempty : word line = "" := by
        rw [hword, hquestion, List.takeWhile_cons_of_neg (by decide)]
      simp [hquestion, hempty]
    · rw [if_neg hquestion, ← hword]
      by_cases hhelp : word line = "help"
      · simp [hhelp]
      · by_cases hend : word line = "EOF"
        · simp [hend]
        · by_cases hexit : word line = "exit" <;> simp [hhelp, hend, hexit]

/-- Programs are entered without the blanks around them, and blank lines are not. -/
theorem eq_trim_of_ofLine {line piece : String} (h : ofLine line = .enter piece) :
    piece.toList = trim line.toList ∧ trim line.toList ≠ [] := by
  unfold ofLine at h
  split at h
  · cases h
  · next c cs hline =>
    -- the commands are no pieces of programs
    have hpiece : piece = String.ofList (c :: cs) := by grind
    rw [hpiece, hline, String.toList_ofList]
    exact ⟨rfl, List.cons_ne_nil c cs⟩

end Command

namespace Shell

/-- The piece of a program in a line, if the line is no command. -/
def piece? (line : String) : Option String :=
  match Command.ofLine line with
  | .enter piece => some piece
  | _ => none

theorem ofLine_of_piece? {line piece : String} (h : piece? line = some piece) :
    Command.ofLine line = .enter piece := by
  unfold piece? at h
  split at h
  · next hline => rw [hline, Option.some.inj h]
  · cases h

/-- The text held back, with a further piece. -/
def joined (s : Shell) (piece : String) : String :=
  if s.held = "" then piece else s.held ++ "\n" ++ piece

/-- The text that a line completes. -/
def completed? (s : Shell) (line : String) : Option String :=
  (piece? line).bind fun piece =>
    let (text, continues) := continuation (s.joined piece)
    if continues then none else some text

/-- The shell after several lines. -/
def after (s : Shell) (lines : List String) : Shell :=
  lines.foldl (fun s line => (s.execute line).2) s

theorem after_append (s : Shell) (lines lines' : List String) :
    s.after (lines ++ lines') = (s.after lines).after lines' :=
  List.foldl_append

/-- What a line can do to the shell. -/
inductive Takes (s : Shell) (line : String) : Bool × Shell → Prop where
  /-- It completes a text, which is run. -/
  | completes (text : String) : s.completed? line = some text →
      Takes s line ((runGuarded text s.session).1,
        { session := (runGuarded text s.session).2, held := "", prompt := .ready })
  /-- It is held back together with the pieces before it. -/
  | continues (piece text : String) : s.completed? line = none → piece? line = some piece →
      continuation (s.joined piece) = (text, true) →
      Takes s line (false, { s with held := text, prompt := .continuing })
  /-- It is a command that goes without an answer. -/
  | silent (stop : Bool) : s.completed? line = none → piece? line = none →
      Takes s line (stop, s)
  /-- It is a command that is answered. -/
  | answers (stop : Bool) (text : String) : s.completed? line = none → piece? line = none →
      text = helpText ∨ text = "\n" → Takes s line (stop, s.notify text)

theorem takes_enter (s : Shell) {line piece : String} (hpiece : piece? line = some piece) :
    s.Takes line (s.enter piece) := by
  have hjoined : (if s.held = "" then piece else s.held ++ "\n" ++ piece) = s.joined piece := rfl
  simp only [enter, hjoined]
  cases hcontinuation : continuation (s.joined piece) with
  | mk text continues =>
    cases continues with
    | true =>
      refine .continues piece text ?_ hpiece hcontinuation
      simp [completed?, hpiece, hcontinuation]
    | false =>
      refine .completes text ?_
      simp [completed?, hpiece, hcontinuation]

theorem takes_execute (s : Shell) (line : String) : s.Takes line (s.execute line) := by
  unfold execute
  cases hpiece : piece? line with
  | some piece =>
    rw [ofLine_of_piece? hpiece]
    exact s.takes_enter hpiece
  | none =>
    -- a command is no piece, so it completes nothing
    have hnone : s.completed? line = none := by
      rw [completed?, hpiece]
      rfl
    cases hline : Command.ofLine line with
    | blank => exact .silent false hnone hpiece
    | help => exact .answers false helpText hnone hpiece (.inl rfl)
    | endOfInput => exact .answers true "\n" hnone hpiece (.inr rfl)
    | exit => exact .silent true hnone hpiece
    | enter piece => simp [piece?, hline] at hpiece

/-! ### What lines do -/

namespace Takes

variable {s : Shell} {line : String} {r : Bool × Shell} (htakes : s.Takes line r)

include htakes

/-- Lines that complete no text leave the session alone, but for the answer to a command. -/
theorem session_eq (htext : s.completed? line = none) :
    r.2.session = s.session ∨
    ∃ text, (text = helpText ∨ text = "\n") ∧ r.2.session = s.session.notify text := by
  cases htakes with
  | completes text hsome => simp [hsome] at htext
  | continues => exact .inl rfl
  | silent => exact .inl rfl
  | answers _ text _ _ htext => exact .inr ⟨text, htext, rfl⟩

theorem store_eq (htext : s.completed? line = none) :
    r.2.session.world.store = s.session.world.store := by
  rcases htakes.session_eq htext with hsame | ⟨text, -, hsame⟩
  · rw [hsame]
  · rw [hsame]
    rfl

variable (h : s.session.Idle)

include h

/-- A line keeps of the session what texts and notices keep. -/
theorem keeps {P : Session → Prop} (hs : P s.session)
    (answers : ∀ text t, s.session.Answers text t → P t)
    (notice : ∀ text, P (s.session.notify text)) : P r.2.session := by
  cases htakes with
  | completes text => exact answers text _ (h.answers_runGuarded text).2
  | continues => exact hs
  | silent => exact hs
  | answers _ text => exact notice text

/-- The line that completes a text does to the session what the text does. -/
theorem answers_of_completed? {text : String} (htext : s.completed? line = some text) :
    s.session.Answers text r.2.session := by
  cases htakes with
  | completes text' htext' =>
    obtain rfl : text' = text := Option.some.inj (htext'.symm.trans htext)
    exact (h.answers_runGuarded text').2
  | continues _ _ hnone => simp [hnone] at htext
  | silent _ hnone => simp [hnone] at htext
  | answers _ _ hnone => simp [hnone] at htext

/-- The shell goes on after a piece of a program. -/
theorem goes_on {piece : String} (hpiece : piece? line = some piece) : r.1 = false := by
  cases htakes with
  | completes text => exact (h.answers_runGuarded text).1
  | continues => rfl
  | silent _ _ hnone => simp [hnone] at hpiece
  | answers _ _ _ hnone => simp [hnone] at hpiece

end Takes

/-- What holds of a shell and is kept by every line holds after all lines.  It may be about
the lines so far. -/
theorem after_induction {s : Shell} {motive : List String → Shell → Prop} (nil : motive [] s)
    (line : ∀ lines line, motive lines (s.after lines) →
      motive (lines ++ [line]) ((s.after lines).execute line).2)
    (lines : List String) : motive lines (s.after lines) := by
  induction lines using List.reverseRecOn with
  | nil => exact nil
  | append_singleton lines last ih =>
    rw [after_append]
    exact line lines last ih

/-- The session is idle after every line, and the trace is not turned on or off. -/
theorem idle_after (reporter : Reporter) (frames : Nat) (lines : List String) :
    ((start reporter frames).after lines).session.Idle ∧
    ((start reporter frames).after lines).session.reporter.tracing = reporter.tracing := by
  refine after_induction (motive := fun _ s => s.session.Idle ∧
    s.session.reporter.tracing = reporter.tracing) ?_ ?_ lines
  · exact ⟨Session.idle_start _ _ _, rfl⟩
  · rintro lines line ⟨hidle, htracing⟩
    refine (takes_execute _ line).keeps hidle (P := fun t => t.Idle ∧
      t.reporter.tracing = reporter.tracing) ⟨hidle, htracing⟩ ?_ ?_
    · exact fun _ _ h => ⟨hidle.of_answers h, h.tracing_eq.trans htracing⟩
    · exact fun _ => ⟨⟨hidle.pending, hidle.results, hidle.fatal⟩, htracing⟩

/-! ### The shell survives -/

/-- The interruption of a text that a line completes goes further out, and takes the shell
with it. -/
def Raises (s : Shell) (line : String) : Prop :=
  ∃ text interruption session, s.completed? line = some text ∧
    (runText text).run s.session = .error interruption session ∧
    (session.reporter.settle interruption).2 ≠ .resumed

/-- What a line does to a shell without a trace. -/
structure Survives (s : Shell) (line : String) : Prop where
  /-- Nothing goes further out. -/
  settles : ¬ s.Raises line
  /-- Two words end the shell. -/
  stops : (s.execute line).1 = true ↔ Command.word line = "exit" ∨ Command.word line = "EOF"
  /-- A text that is no program changes no scope and calls no host function: all that
  happens is that a message is shown. -/
  unread : ∀ text failure, s.completed? line = some text →
    parse s.session.frames text = .error failure →
    (s.execute line).2.session.world = s.session.world.notify
      ((s.session.workingOn text).reporter.settle failure.interruption).1
  /-- A program that fails leaves the scopes as it had made them, and what it had written is
  followed by a message. -/
  failed : ∀ text program fault w, s.completed? line = some text →
    parse s.session.frames text = .ok program →
    run false s.session.frames (.block program) globalScope s.session.world = (.error fault, w) →
    (s.execute line).2.session.world
      = w.notify ((s.session.workingOn text).reporter.report fault) ∧
    ∃ events, w.log.toList = s.session.world.log.toList ++ events ∧ ∀ e ∈ events, e.OfRun false
  /-- Lines that complete no text leave the scopes alone. -/
  kept : s.completed? line = none → (s.execute line).2.session.world.store = s.session.world.store

theorem not_raises {s : Shell} (h : s.session.Idle) (line : String) : ¬ s.Raises line := by
  rintro ⟨text, interruption, session, -, hrun, hsettled⟩
  have hends := Session.ends_runText h.pending text
  rw [hrun] at hends
  exact hsettled (h.settle_of_ends hends)

theorem execute_stops_iff {s : Shell} (h : s.session.Idle) (line : String) :
    (s.execute line).1 = true ↔ Command.word line = "exit" ∨ Command.word line = "EOF" := by
  rw [← Command.ends_iff]
  cases hline : Command.ofLine line with
  | enter piece =>
    have hpiece : piece? line = some piece := by rw [piece?, hline]
    simp [(s.takes_execute line).goes_on h hpiece]
  | _ => simp [execute, hline]

/-- A shell that holds the start of a program back, and has been asked for help since. -/
def halfEntered : Shell := (start {} 400).after ["y = (", "?"]

/-- A program that assigns, writes, and then fails. -/
def failingSample : List Term :=
  [.assign (.var "y") (.boolean true), .call (.var "print") [.var "y"], .var "z"]

end Shell

end Lamlet
