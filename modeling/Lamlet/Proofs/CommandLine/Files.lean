import Lamlet.CommandLine.Execute
import Lamlet.Proofs.Eval.Output
import Lamlet.Proofs.Shell.Texts

/-!
# Running a file

The command with the name of a file, and nothing else, runs the program in the file.  It
returns if the program has a value, and the output is then what the program printed.
Whatever goes wrong, from opening the file to the last step of the program, ends the command
with exit code one, and one message about it follows what was printed before.

## Main definitions

* `Session.FileContent.source?` — the text of a file that can be read.
* `FileRun` — what comes of running a file: a fault if there is one, and the world that is
  left.
* `CommandLine.concluded` — the outcome of the command.

## Main results

* `FileRun.unique` — a file comes to one thing only.
* `CommandLine.ofArguments_file` — a name that starts with no minus is the name of a file.
* `CommandLine.runFile_concluded` — the outcome of the command is that of running the file.
* `CommandLine.execute_file` — **the command tells how running a file ended.**
-/

namespace Lamlet

open Store Text

/-! ### What comes of a file -/

/-- The text of a file that can be opened and decoded. -/
def Session.FileContent.source? : FileContent → Option String
  | unreadable => none
  | bytes content =>
    (String.fromUTF8? content).map fun text => String.ofList (unifyNewlines text.toList)

/-- The fault that a failed attempt to read a program is reported as. -/
def ParseFailure.toFault : ParseFailure → Fault
  | tooDeep => { cause := .stackExhausted }
  | fault f _ => f

/-- What comes of running the file of a given name: the fault that ends the run, unless the
program has a value, and the world that is left. -/
inductive FileRun (path : String) (frames : Nat) (content : Session.FileContent) :
    Option Fault → World → Prop where
  /-- The file cannot be opened. -/
  | unopenable : content = .unreadable → '\x00' ∉ path.toList →
      FileRun path frames content (some { cause := .unopenable path }) .initial
  /-- There are no files of such a name. -/
  | unnameable : content = .unreadable → '\x00' ∈ path.toList →
      FileRun path frames content
        (some { cause := .foreign "ValueError" "embedded null byte" }) .initial
  /-- The file holds no text. -/
  | undecodable {bytes : ByteArray} : content = .bytes bytes → String.fromUTF8? bytes = none →
      FileRun path frames content (some { cause := .undecodable path }) .initial
  /-- The text is no program, or nests too deep to be read. -/
  | unread {source : String} {failure : ParseFailure} : content.source? = some source →
      parse frames source = .error failure →
      FileRun path frames content (some failure.toFault) .initial
  /-- The program fails. -/
  | failed {source : String} {program : List Term} {fault : Fault} {w : World} :
      content.source? = some source → parse frames source = .ok program →
      run false frames (.block program) globalScope .initial = (.error fault, w) →
      FileRun path frames content (some fault) w
  /-- The program has a value. -/
  | valued {source : String} {program : List Term} {value : Value} {w : World} :
      content.source? = some source → parse frames source = .ok program →
      run false frames (.block program) globalScope .initial = (.ok value, w) →
      FileRun path frames content none w

namespace FileRun

variable {path : String} {frames : Nat} {content : Session.FileContent}
  {fault? fault?' : Option Fault} {w w' : World}

/-- A file comes to one thing only. -/
theorem unique (h : FileRun path frames content fault? w)
    (h' : FileRun path frames content fault?' w') : fault? = fault?' ∧ w = w' := by
  -- What one way says about the file denies what any other says.
  cases h <;> cases h' <;> simp_all [Session.FileContent.source?]

/-- There is no fault if the file holds a program that has a value. -/
theorem none_iff (h : FileRun path frames content fault? w) :
    fault? = none ↔ ∃ bytes text program value w, content = .bytes bytes ∧
      String.fromUTF8? bytes = some text ∧
      parse frames (String.ofList (unifyNewlines text.toList)) = .ok program ∧
      run false frames (.block program) globalScope .initial = (.ok value, w) := by
  constructor
  · rintro rfl
    obtain _ | _ | _ | _ | _ | ⟨hsource, hparse, hvalued⟩ := h
    cases content with
    | unreadable => cases hsource
    | bytes content =>
      obtain ⟨text, htext, rfl⟩ := Option.map_eq_some_iff.1 hsource
      exact ⟨content, text, _, _, _, rfl, htext, hparse, hvalued⟩
  · rintro ⟨bytes, text, program, value, w', rfl, htext, hparse, hvalued⟩
    have hsource : (Session.FileContent.bytes bytes).source?
        = some (String.ofList (unifyNewlines text.toList)) :=
      Option.map_eq_some_iff.2 ⟨text, htext, rfl⟩
    -- a file has one run, so the one with a value is the one at hand
    exact (h.unique (.valued hsource hparse hvalued)).1

/-- Nothing is printed if there is no program. -/
theorem printed_eq_empty (h : FileRun path frames content fault? w)
    (hnone : ∀ source program, content.source? = some source → parse frames source ≠ .ok program) :
    w.printed = "" := by
  cases h with
  | failed hsource hparse _ => exact absurd hparse (hnone _ _ hsource)
  | valued hsource hparse _ => exact absurd hparse (hnone _ _ hsource)
  | _ => rfl

end FileRun

namespace CommandLine

/-! ### The name of a file -/

/-- An argument that does not start with a minus is no switch. -/
theorem classify_plain {argument : String} (h : argument.toList.head? ≠ some '-') :
    Argument.classify argument = .ok (.plain argument) := by
  unfold Argument.classify
  cases hcs : argument.toList with
  | nil => rfl
  | cons c cs =>
    rw [hcs] at h
    have hc : c ≠ '-' := fun hc => h (by rw [hc]; rfl)
    split <;> simp_all

/-- A name that does not start with a minus is the name of a file. -/
theorem ofArguments_file {path : String} (h : path.toList.head? ≠ some '-') :
    Options.ofArguments [path] = .ok (.work { file := some path }) := by
  have hseparator : path ≠ "--" := by
    rintro rfl
    exact h rfl
  rw [Options.ofArguments, Argument.classifyAll, if_neg hseparator, classify_plain h]
  rfl

/-! ### The session on a file -/

/-- The outcome of the command, for a fault that ends the run, or none, and the world that is
left: the one message about the fault comes after what was printed. -/
def concluded (path : String) (content : Session.FileContent) : Option Fault → World → Outcome
  | none, w => { ending := .returned, output := w.printed }
  | some fault, w =>
    { ending := .exit (some 1),
      output := w.printed ++ Reporter.report { sources := [(path, content.source?)] } fault }

section

variable {path : String} {frames : Nat} {content : Session.FileContent}

theorem written_notify (w : World) (colored : Bool) (text : String) :
    (w.notify text).written colored = w.written colored ++ text := by
  simp [World.notify, World.written, Event.textOf, Event.text, String.join_append]

/-- Work on a file that can be read is work on its text. -/
theorem run_workOnFile {s : Session} (hpath : s.path ≠ Session.typedInput) :
    (workOnFile false content).run s =
      match content.text s.path with
      | .ok source => (Shell.runText source).run s
      | .error interruption => .error interruption s := by
  simp only [workOnFile, Session.load, EStateM.run_bind, EStateM.run_get, if_neg hpath]
  cases content.text s.path <;> rfl

theorem text_of_source? {source : String} (h : content.source? = some source) :
    content.text path = .ok source := by
  cases content with
  | unreadable => cases h
  | bytes content =>
    obtain ⟨text, htext, rfl⟩ := Option.map_eq_some_iff.1 h
    simp only [Session.FileContent.text, htext]

/-- While the text of the file is worked on, the reporter knows that text and no other. -/
theorem reporter_workingOn (path source : String) (frames : Nat) :
    ((Session.start {} path false frames).workingOn source).reporter
      = { sources := [(path, some source)] } := by
  simp [Session.start, Session.workingOn, Reporter.register, Assoc.put]

/-- An interruption that is reported as a fault ends the command, and the message about the
fault comes after what was written. -/
theorem runFile_of_error {s : Session} {interruption : Interruption} {fault : Fault}
    (hrun : (workOnFile false content).run (Session.start {} path false frames)
      = .error interruption s)
    (hsettle : s.reporter.settle interruption = (s.reporter.report fault, .exit (some 1))) :
    runFile false path {} frames content
      = { ending := .exit (some 1),
          output := s.world.written s.reporter.colored ++ s.reporter.report fault } := by
  simp only [runFile, hrun, hsettle]
  rw [outcomeOf, ← written_notify]
  rfl

/-- A file that cannot be read. -/
theorem runFile_of_text_error (hpath : path ≠ Session.typedInput) {interruption : Interruption}
    (htext : content.text path = .error interruption) (hsource : content.source? = none)
    {fault : Fault} (hsettle : ∀ r : Reporter, r.fatal = true →
      r.settle interruption = (r.report fault, .exit (some 1))) :
    runFile false path {} frames content = concluded path content (some fault) .initial := by
  have hrun : (workOnFile false content).run (Session.start {} path false frames)
      = .error interruption (Session.start {} path false frames) := by
    rw [run_workOnFile hpath]
    change (match content.text path with
      | .ok source => (Shell.runText source).run (Session.start {} path false frames)
      | .error interruption => .error interruption _) = _
    rw [htext]
  rw [runFile_of_error hrun (hsettle _ rfl), concluded, hsource]
  rfl

theorem written_of_run_initial {program : List Term} {outcome : Except Fault Value} {w : World}
    (h : run false frames (.block program) globalScope .initial = (outcome, w)) :
    w.written false = w.printed := by
  have hwritten := written_of_run frames (.block program) globalScope (w := .initial) rfl
  rwa [h] at hwritten

/-- **The outcome of the command is that of running the file.**  Of the six things that can come
of a file one does, and the command ends and prints as `concluded` says of it.  A file without a
text is reported before anything is run; all the rest goes through the queue of a session that has
just started. -/
theorem runFile_concluded (hpath : path ≠ Session.typedInput) :
    ∃ fault? w, FileRun path frames content fault? w ∧
      runFile false path {} frames content = concluded path content fault? w := by
  cases hsource : content.source? with
  | none =>
    -- there is no text to run, and the message says why
    cases content with
    | unreadable =>
      -- a name with a NUL in it is refused before any file is looked for
      by_cases hnul : '\x00' ∈ path.toList
      · have htext : Session.FileContent.unreadable.text path
            = .error (.foreign "ValueError" "embedded null byte") := if_pos hnul
        refine ⟨_, _, .unnameable rfl hnul, runFile_of_text_error hpath htext rfl ?_⟩
        intro r hr
        simp [Reporter.settle, hr]
      · have htext : Session.FileContent.unreadable.text path
            = .error (.fault { cause := .unopenable path }) := if_neg hnul
        refine ⟨_, _, .unopenable rfl hnul, runFile_of_text_error hpath htext rfl ?_⟩
        intro r hr
        simp [Reporter.settle, Reporter.afterReport, hr]
    | bytes content =>
      have hutf : String.fromUTF8? content = none := Option.map_eq_none_iff.1 hsource
      have htext : (Session.FileContent.bytes content).text path
          = .error (.fault { cause := .undecodable path }) := by
        simp only [Session.FileContent.text, hutf]
      refine ⟨_, _, .undecodable rfl hutf, runFile_of_text_error hpath htext hsource ?_⟩
      intro r hr
      simp [Reporter.settle, Reporter.afterReport, hr]
  | some source =>
    have hrun : (workOnFile false content).run (Session.start {} path false frames)
        = (Shell.runText source).run (Session.start {} path false frames) := by
      rw [run_workOnFile hpath, text_of_source? hsource]
    -- from here on it is the text that is run, and each way in which that ends has its report
    have hends := Session.ends_runText (s := Session.start {} path false frames) rfl source
    generalize (Shell.runText source).run (Session.start {} path false frames) = r at hrun hends
    have hreporter := reporter_workingOn path source frames
    cases hends with
    | @unread failure hparse =>
      refine ⟨_, _, .unread hsource hparse, ?_⟩
      have hsettle : ((Session.start {} path false frames).workingOn source).reporter.settle
          failure.interruption
          = (((Session.start {} path false frames).workingOn source).reporter.report
            failure.toFault, .exit (some 1)) := by
        cases failure <;> rfl
      rw [runFile_of_error hrun hsettle, hreporter, concluded, hsource]
      rfl
    | @failed program fault w hparse hfailed =>
      refine ⟨_, _, .failed hsource hparse hfailed, ?_⟩
      have hwritten := written_of_run_initial hfailed
      rw [runFile_of_error hrun rfl]
      simp only [hreporter, hwritten, concluded, hsource]
    | @valued program value w hparse hvalued =>
      refine ⟨_, _, .valued hsource hparse hvalued, ?_⟩
      have hwritten := written_of_run_initial hvalued
      simp only [runFile, hrun, concluded, ← hwritten]
      rfl

end

/-! ### The command -/

theorem header_starts (path : String) (source : Option String) (fault : Fault) :
    ∃ rest, Reporter.header { sources := [(path, source)] } fault = path ++ ":" ++ rest := by
  unfold Reporter.header
  cases fault.position with
  | none => exact ⟨" ", by rw [String.append_assoc]; rfl⟩
  | some p =>
    refine ⟨intText p.line ++ ":" ++ intText p.column ++ ": ", ?_⟩
    simp only [paint, Bool.false_eq_true, if_false, Reporter.origin, List.headD_cons,
      String.append_assoc]

/-- Without colours, a message starts with the name of the file. -/
theorem report_starts (path : String) (source : Option String) (fault : Fault) :
    ∃ rest, Reporter.report { sources := [(path, source)] } fault = path ++ ":" ++ rest := by
  obtain ⟨rest, hrest⟩ := header_starts path source fault
  simp only [Reporter.report, Reporter.headline, hrest, String.append_assoc]
  exact ⟨_, rfl⟩

theorem execute_runFile {path : String} (hswitch : path.toList.head? ≠ some '-')
    (files : String → Session.FileContent) (input : String) :
    execute [path] false files input = runFile false path {} 10000 (files path) := by
  rw [execute, ofArguments_file hswitch]
  rfl

/-- **The command tells how running a file ended.**  It returns exactly if the file can be
opened and decoded, its text is a program and the program has a value; the output is then
what the program printed.  Otherwise it ends with exit code one, and one message, which starts
with the name of the file, follows what the program printed; that is nothing if there was no
program to run. -/
theorem execute_file {path : String} (hpath : path ≠ Session.typedInput)
    (hswitch : path.toList.head? ≠ some '-') (files : String → Session.FileContent)
    (input : String) :
    ((execute [path] false files input).ending = .returned ↔
      ∃ bytes text program value w, files path = .bytes bytes ∧
        String.fromUTF8? bytes = some text ∧
        parse 10000 (String.ofList (unifyNewlines text.toList)) = .ok program ∧
        run false 10000 (.block program) globalScope .initial = (.ok value, w)) ∧
    ∃ fault? w,
      (∀ fault?' w', FileRun path 10000 (files path) fault?' w' ↔ fault?' = fault? ∧ w' = w) ∧
      match fault? with
      | none => execute [path] false files input = { ending := .returned, output := w.printed }
      | some fault =>
        ∃ diagnostic, execute [path] false files input
            = { ending := .exit (some 1), output := w.printed ++ diagnostic } ∧
          diagnostic = Reporter.report { sources := [(path, (files path).source?)] } fault ∧
          (∃ rest, diagnostic = path ++ ":" ++ rest) ∧
          ((∀ source program, (files path).source? = some source →
            parse 10000 source ≠ .ok program) → w.printed = "") := by
  obtain ⟨fault?, w, hfile, hexecute⟩ :=
    @runFile_concluded path 10000 (files path) hpath
  rw [← execute_runFile hswitch files input] at hexecute
  refine ⟨?_, fault?, w, fun fault?' w' => ?_, ?_⟩
  · rw [hexecute, ← hfile.none_iff]
    cases fault? with
    | none => simp [concluded]
    | some fault => simp [concluded]
  · -- a file has one run
    constructor
    · exact fun h => h.unique hfile
    · rintro ⟨rfl, rfl⟩
      exact hfile
  · cases fault? with
    | none => exact hexecute
    | some fault =>
      exact ⟨_, hexecute, rfl, report_starts _ _ _, hfile.printed_eq_empty⟩

/-- A program that prints, and fails then. -/
def printingSample : String := "println(true); y"

theorem parse_printingSample : parse 10000 printingSample
    = .ok [.call (.var "println") [.boolean true], .var "y"] := by
  have htokens : (lex printingSample).tokens.map (·.token)
      = [.name "println", .mark .leftParen, .keyword .trueWord, .mark .rightParen,
        .mark .semicolon, .name "y"] := by decide +kernel
  exact parse_of_tokens htokens (by decide +kernel) rfl (by decide)

theorem execute_file_printingSample :
    "prog.lam" ≠ Session.typedInput ∧ "prog.lam".toList.head? ≠ some '-' ∧
    execute ["prog.lam"] false (fun _ => .bytes printingSample.toUTF8) ""
      = { ending := .exit (some 1),
          output := "true\nprog.lam: UndefinedVariableError: Undefined variable 'y'\n" } := by
  have hpath : "prog.lam" ≠ Session.typedInput := by decide
  have hswitch : "prog.lam".toList.head? ≠ some '-' := by decide
  refine ⟨hpath, hswitch, ?_⟩
  obtain ⟨-, fault?, w, hfile, houtcome⟩ :=
    execute_file hpath hswitch (fun _ => .bytes printingSample.toUTF8) ""
  have hsource : (Session.FileContent.bytes printingSample.toUTF8).source?
      = some printingSample := by decide +kernel
  -- a file has one run, and failing at the undefined name is one
  obtain ⟨rfl, rfl⟩ := (hfile _ _).1 (.failed hsource parse_printingSample rfl)
  obtain ⟨diagnostic, hexecute, rfl, -⟩ := houtcome
  rw [hexecute]
  decide +kernel

end CommandLine

end Lamlet
