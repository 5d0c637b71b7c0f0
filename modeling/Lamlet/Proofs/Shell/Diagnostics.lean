import Mathlib.Logic.Relation
import Lamlet.Proofs.Grammar.Rejection
import Lamlet.Proofs.Shell.Held

/-!
# Messages point into the source

A fault of reading has the position of a place in the text that was read, and the message
about it quotes the line of that place.  Lines and columns are counted while the text is
read, the line is found by splitting the text that is registered; that they fit together
needs that the registered text is the one that was read, and that messages name the file it
was registered for.

## Main definitions

* `Place.In` — the places of a text.
* `Session.Step`, `Session.Reached` — what can be done with a session, and where that leads.
* `PointsInto` — a message that points to a place of a text.

## Main results

* `place_of_parse` — a fault of reading has a place of the text.
* `Session.worksOn_of_reached` — messages name the file of the session, whatever it did before.
* `Reporter.report_plain` — the message about a fault with a quoted line.
* `Session.points_into_source` — **the message about a fault of reading points into the
  source.**
-/

namespace Lamlet

open Text

/-! ### The place of a fault of reading -/

/-- A place that a reader of the text can come to. -/
def Place.In (source : String) (p : Place) : Prop :=
  ∃ before after, source.toList = before ++ after ∧ p = Place.start.advance before

theorem Ending.exists_append {left consumed : List Char} {trouble : Option LexicalCause}
    (h : Ending left trouble consumed) : ∃ rest, left = consumed ++ rest := by
  cases h with
  | finished => exact ⟨[], (List.append_nil left).symm⟩
  | unreadable => exact ⟨_, rfl⟩
  | unterminated => exact ⟨[], (List.append_nil _).symm⟩

theorem exists_front_of_mem_locate {p : Place} {pieces : List Piece} {t : Located}
    (h : t ∈ locate p pieces) :
    ∃ front back, pieces = front ++ back ∧ t.after = p.advance (front.flatMap Piece.chars) := by
  induction pieces generalizing p with
  | nil => simp [locate] at h
  | cons q pieces ih =>
    rcases List.mem_cons.1 h with rfl | h
    · exact ⟨[q], pieces, rfl, by simp⟩
    · obtain ⟨front, back, rfl, hafter⟩ := ih h
      refine ⟨q :: front, back, rfl, ?_⟩
      rw [hafter, List.flatMap_cons, Place.advance_append]

/-- The places after tokens, and that where reading stops, are places of the text. -/
theorem places_of_lex (source : String) :
    (lex source).stop.place.In source ∧ ∀ t ∈ (lex source).tokens, t.after.In source := by
  -- all these places are ends of what the split of the text starts with
  obtain ⟨pieces, left, trouble, consumed, hsplits, hending⟩ := exists_splits source.toList
  obtain ⟨rest, hlex⟩ := hsplits.lex hending .start
  change lex source = _ at hlex
  rw [hlex]
  constructor
  · obtain ⟨after, hleft⟩ := hending.exists_append
    refine ⟨_, after, ?_, rfl⟩
    rw [hsplits.eq_append, hleft, List.append_assoc]
  · intro t ht
    obtain ⟨front, back, rfl, hafter⟩ := exists_front_of_mem_locate ht
    obtain ⟨mid, hfront, -⟩ := hsplits.of_append
    exact ⟨_, mid, hfront.eq_append, hafter⟩

/-- The reader stands after a token or where reading stops. -/
theorem Lexed.placeOf_cases (l : Lexed) (rest : List Token) :
    l.placeOf rest = l.stop.place ∨ ∃ t ∈ l.tokens, l.placeOf rest = t.after := by
  unfold placeOf
  split
  · exact .inl rfl
  · split
    · exact .inl rfl
    · next t ts hdrop =>
      have hmem : t ∈ t :: ts := List.mem_cons_self
      rw [← hdrop] at hmem
      exact .inr ⟨t, List.mem_of_mem_drop hmem, rfl⟩

/-- What a fault of reading says: the cause is lexical or one of the grammar, and the
position is that of the place. -/
inductive ReadingFault (place : Place) : Fault → Prop where
  | lexical (why : LexicalCause) : ReadingFault place (.atPlace (.lexical why) place)
  | syntactic (wanted : Wanted) (found : Option Token) :
      ReadingFault place (.atPlace (.syntactic wanted found) place)

/-- A fault of reading has a place of the text. -/
theorem place_of_parse {frames : Nat} {source : String} {fault : Fault} {place : Place}
    (h : parse frames source = .error (.fault fault place)) :
    place.In source ∧ ReadingFault place fault := by
  obtain ⟨hstop, htokens⟩ := places_of_lex source
  have hplaceOf (rest : List Token) : ((lex source).placeOf rest).In source := by
    rcases (lex source).placeOf_cases rest with hsame | ⟨t, ht, hsame⟩
    · rw [hsame]
      exact hstop
    · rw [hsame]
      exact htokens t ht
  have hlexical {fault' : Fault} (hfault : (lex source).fault? = some fault') :
      ReadingFault (lex source).stop.place fault' := by
    obtain ⟨why, -, rfl⟩ := Option.map_eq_some_iff.1 hfault
    exact .lexical why
  -- reading fails at a token, at the end, or where the lexer stopped
  rw [parse, Lexed.parse] at h
  split at h
  · cases h
  · next wanted rest _ =>
    rcases (lex source).rejection_cases wanted rest with
      ⟨-, fault', hfault, hrejection⟩ | ⟨-, hrejection⟩
    · obtain ⟨rfl, rfl⟩ := ParseFailure.fault.inj (hrejection.symm.trans (Except.error.inj h))
      exact ⟨hstop, hlexical hfault⟩
    · obtain ⟨rfl, rfl⟩ := ParseFailure.fault.inj (hrejection.symm.trans (Except.error.inj h))
      exact ⟨hplaceOf rest, .syntactic wanted rest.head?⟩
  · split at h
    · next fault' hfault =>
      obtain ⟨rfl, rfl⟩ := ParseFailure.fault.inj (Except.error.inj h)
      exact ⟨hstop, hlexical hfault⟩
    · cases h

/-! ### The file that messages name -/

namespace Session

/-- The session that an action leaves, whether it was interrupted or not. -/
def left {α : Type} : EStateM.Result Interruption Session α → Session
  | .ok _ s => s
  | .error _ s => s

/-- The action keeps a property of the session, whether it is interrupted or not. -/
def Keeps {α : Type} (P : Session → Prop) (action : Action α) : Prop :=
  ∀ s, P s → P (left (action.run s))

section Keeps

variable {α β : Type} {P : Session → Prop}

theorem keeps_pure (a : α) : Keeps P (pure a) := fun _ hs => hs

theorem keeps_throw (interruption : Interruption) : Keeps P (throw interruption : Action α) :=
  fun _ hs => hs

theorem keeps_get : Keeps P get := fun _ hs => hs

theorem keeps_modify {f : Session → Session} (h : ∀ s, P s → P (f s)) : Keeps P (modify f) := h

theorem keeps_modifyGet {f : Session → α × Session} (h : ∀ s, P s → P (f s).2) :
    Keeps P (modifyGet f) := h

theorem Keeps.bind {x : Action α} {f : α → Action β} (hx : Keeps P x) (hf : ∀ a, Keeps P (f a)) :
    Keeps P (x >>= f) := by
  intro s hs
  have hleft := hx s hs
  rw [EStateM.run_bind]
  cases hrun : x.run s with
  | ok a t =>
    rw [hrun] at hleft
    exact hf a t hleft
  | error interruption t =>
    rw [hrun] at hleft
    exact hleft

theorem Keeps.discard {x : Action α} (hx : Keeps P x) : Keeps P (discard x) := by
  intro s hs
  have hleft := hx s hs
  rw [run_discard]
  cases hrun : x.run s <;> rw [hrun] at hleft <;> exact hleft

end Keeps

/-- The session works on the given file, which messages name. -/
def WorksOn (path : String) (s : Session) : Prop := s.path = path ∧ s.Leads

section

variable {path : String}

theorem keeps_registerSource (source : Option String) :
    Keeps (WorksOn path) (registerSource source) :=
  keeps_modify fun _ hs => ⟨hs.1, hs.2.workingOn source⟩

theorem keeps_parse (source : String) : Keeps (WorksOn path) (parse source) := by
  refine (keeps_registerSource _).bind fun _ => keeps_get.bind fun s => ?_
  cases Lamlet.parse s.frames source with
  | ok program => exact keeps_pure program
  | error failure => exact keeps_throw _

theorem keeps_add (source : String) : Keeps (WorksOn path) (add source) := by
  refine (keeps_parse source).bind fun program => ?_
  exact (keeps_modify fun _ hs => hs).bind fun _ => keeps_pure program

theorem keeps_runProgram (source : String) (program : List Term) :
    Keeps (WorksOn path) (runProgram source program) := by
  refine (keeps_registerSource _).bind fun _ =>
    (keeps_modifyGet fun _ hs => hs).bind fun outcome => ?_
  cases outcome with
  | ok value => exact keeps_modify fun _ hs => hs
  | error fault => exact keeps_throw _

theorem keeps_runEach (pending : List (String × List Term)) :
    Keeps (WorksOn path) (runEach pending) := by
  induction pending with
  | nil => exact keeps_pure ()
  | cons entry pending ih => exact (keeps_runProgram entry.1 entry.2).bind fun _ => ih

theorem keeps_runPending : Keeps (WorksOn path) runPending :=
  (keeps_modifyGet fun _ hs => hs).bind fun pending =>
    (keeps_runEach pending).bind fun _ => keeps_registerSource none

theorem keeps_load (commandLine : Bool) (content : FileContent) :
    Keeps (WorksOn path) (load commandLine content) := by
  refine keeps_get.bind fun s => ?_
  dsimp only
  split
  · split
    · exact keeps_pure ()
    · exact keeps_throw _
  · split
    · next source _ => exact (keeps_add source).discard
    · exact keeps_throw _

end

/-- What can be done with a session, interrupted or not. -/
inductive Step (s : Session) : Session → Prop where
  | load (commandLine : Bool) (content : FileContent) :
      Step s (left ((load commandLine content).run s))
  | parse (source : String) : Step s (left ((parse source).run s))
  | add (source : String) : Step s (left ((add source).run s))
  | run : Step s (left (runPending.run s))
  | pop : Step s s.pop?.2
  | notify (text : String) : Step s (s.notify text)

/-- One session comes from the other by whatever was done with it. -/
def Reached : Session → Session → Prop := Relation.ReflTransGen Step

theorem Step.worksOn {path : String} {s t : Session} (h : s.Step t) (hs : s.WorksOn path) :
    t.WorksOn path := by
  cases h with
  | load commandLine content => exact keeps_load commandLine content s hs
  | parse source => exact keeps_parse source s hs
  | add source => exact keeps_add source s hs
  | run => exact keeps_runPending s hs
  | pop => exact hs
  | notify text => exact hs

/-- Messages name the file of the session, whatever was done with it before. -/
theorem worksOn_of_reached {fatal tracing colored commandLine : Bool} {path : String} {frames : Nat}
    {s : Session} (h : (start { fatal, tracing, colored } path commandLine frames).Reached s) :
    s.WorksOn path := by
  induction h with
  | refl => exact ⟨rfl, none, [], rfl⟩
  | tail _ hstep ih => exact hstep.worksOn ih

end Session

/-! ### Messages with a quoted line -/

theorem Text.intText_natCast (n : Nat) : intText n = natText n := by
  simp [intText]

namespace Reporter

theorem paint_plain (tint : Option Tint) (text : String) : paint false tint text = text := rfl

/-- The spaces before a caret under a character of a line.  Column zero is taken for the
first. -/
def caretIndent (column : Nat) : String := String.ofList (List.replicate (max column 1 - 1) ' ')

/-- Without colours the line is shown as it is, with a caret under one character. -/
theorem diagnose_plain {r : Reporter} (h : r.colored = false) (line : String) (column : Nat) :
    r.diagnose line column = "  " ++ line ++ "\n" ++ "  " ++ caretIndent column ++ "^" := by
  have hbefore : ((column : Int) - 1).toNat = max column 1 - 1 := by omega
  have hline (n : Nat) : String.ofList (line.toList.take n)
      ++ String.ofList ((line.toList.drop n).take 1) ++ String.ofList (line.toList.drop (n + 1))
      = line := by
    rw [← String.ofList_append, ← String.ofList_append, List.append_assoc,
      ← List.drop_drop, List.take_append_drop, List.take_append_drop, String.ofList_toList]
  simp only [diagnose, h, paint_plain, hbefore, caretIndent]
  conv_rhs => rw [← hline (max column 1 - 1)]
  simp only [String.append_assoc]

/-- The message about a fault at a position whose line is quoted, without colours. -/
theorem report_plain {r : Reporter} (h : r.colored = false) {fault : Fault} {line column : Nat}
    {text : String} (hposition : fault.position = some ⟨line, column⟩)
    (hquoted : r.quotedLine? fault = some text) (hinternal : fault.cause.internal = false) :
    r.report fault
      = r.origin.1 ++ ":" ++ natText line ++ ":" ++ natText column ++ ": "
        ++ fault.cause.kind.title ++ ": " ++ fault.cause.message ++ "\n"
        ++ "  " ++ text ++ "\n" ++ "  " ++ caretIndent column ++ "^\n" := by
  have hend : "^\n" = "^" ++ "\n" := rfl
  simp only [report, headline, header, hposition, hquoted, hinternal, h, paint_plain,
    diagnose_plain h, intText_natCast, hend, Bool.false_eq_true, if_false, String.append_empty,
    String.append_assoc]

end Reporter

/-- A message points to a place of a text: the position is that of the place, the message
names the file, and it quotes the line of the place. -/
structure PointsInto (reporter : Reporter) (path source : String) (fault : Fault) (place : Place)
    (text : String) : Prop where
  kind : fault.cause.kind = .lexical ∨ fault.cause.kind = .syntactic
  position : fault.position = some ⟨place.line, place.column⟩
  offset_le : place.offset ≤ source.toList.length
  line_eq : place.line = 1 + (source.toList.take place.offset).count '\n'
  column_eq : place.column = place.offset - lineStart source.toList place.line
  lineStart_le : lineStart source.toList place.line ≤ place.offset
  file : reporter.origin.1 = path
  quoted : reporter.quotedLine? fault = some text
  /-- The quoted text is the line with that number. -/
  text_eq : (splitLines source.toList)[place.line - 1]? = some text.toList
  column_le : place.column ≤ text.length
  /-- The line is shown as it is, and the caret stands under the character whose number is
  the column, or under the first one where the column is zero. -/
  plain : reporter.colored = false → reporter.report fault
    = path ++ ":" ++ natText place.line ++ ":" ++ natText place.column ++ ": "
      ++ fault.cause.kind.title ++ ": " ++ fault.cause.message ++ "\n"
      ++ "  " ++ text ++ "\n" ++ "  " ++ Reporter.caretIndent place.column ++ "^\n"

/-- A reporter that knows the text which was read points into it. -/
theorem pointsInto_of_place {reporter : Reporter} {path source : String} {fault : Fault}
    {place : Place} (horigin : reporter.origin = (path, some source)) (hplace : place.In source)
    (hfault : ReadingFault place fault) :
    ∃ text, PointsInto reporter path source fault place text := by
  obtain ⟨before, after, hsource, rfl⟩ := hplace
  obtain ⟨first, hline⟩ := getElem?_splitLines before after
  have hstart := lineStart_add_length before after
  have hposition : fault.position = some ⟨((before.count '\n' + 1 : Nat) : Int),
      ((lastLine before).length : Int)⟩ := by
    cases hfault <;> rw [Fault.atPlace, Place.start_advance] <;> rfl
  have hinternal : fault.cause.internal = false := by cases hfault <;> rfl
  -- line and column are counted as the lines are split
  have hquoted : reporter.quotedLine? fault = some (String.ofList (lastLine before ++ first)) := by
    have hnumber : ((before.count '\n' + 1 : Nat) : Int).toNat - 1 = before.count '\n' := by omega
    have hpos : (0 : Int) < ((before.count '\n' + 1 : Nat) : Int) := by omega
    simp only [Reporter.quotedLine?, hposition, horigin, hsource, Option.bind_eq_bind,
      Option.bind_some, if_pos hpos, hnumber, hline]
    rfl
  rw [Place.start_advance]
  refine ⟨String.ofList (lastLine before ++ first), {
    kind := ?_
    position := hposition
    offset_le := ?_
    line_eq := ?_
    column_eq := ?_
    lineStart_le := ?_
    file := by rw [horigin]
    quoted := hquoted
    text_eq := ?_
    column_le := by simp
    plain := fun hcolored => ?_ }⟩
  · cases hfault
    · exact .inl rfl
    · exact .inr rfl
  · rw [hsource, List.length_append]
    exact Nat.le_add_right _ _
  · rw [hsource, List.take_left]
    exact Nat.add_comm _ _
  · rw [hsource]
    dsimp only
    omega
  · rw [hsource]
    dsimp only
    omega
  · rw [hsource, String.toList_ofList]
    exact hline
  · rw [Reporter.report_plain hcolored hposition hquoted hinternal, horigin]

namespace Session

/-- A session that works on a file and a text reports faults of that text. -/
theorem WorksOn.origin_workingOn {path : String} {s : Session} (h : s.WorksOn path)
    (source : String) : (s.workingOn source).reporter.origin = (path, some source) := by
  obtain ⟨rfl, old, rest, hsources⟩ := h
  simp [workingOn, Reporter.register, Reporter.origin, hsources, Assoc.put]

/-- Reading a text that has a fault leaves the session working on the text. -/
theorem fault_of_run {s t : Session} {source : String} {fault : Fault}
    (h : (parse source).run s = .error (.fault fault) t ∨
      (add source).run s = .error (.fault fault) t) :
    t = s.workingOn source ∧
      ∃ place, Lamlet.parse s.frames source = .error (.fault fault place) := by
  rw [run_parse, run_add] at h
  cases hparse : Lamlet.parse s.frames source with
  | ok program => simp [hparse] at h
  | error failure =>
    simp only [hparse, or_self] at h
    obtain ⟨hfault, rfl⟩ := EStateM.Result.error.inj h
    cases failure with
    -- to run out of frames is no fault
    | tooDeep => cases hfault
    | fault fault' place =>
      obtain rfl := Interruption.fault.inj hfault
      exact ⟨rfl, place, rfl⟩

/-- **The message about a fault of reading points into the source**, whatever the session has been
used for before.  Line and column are those of a place in the text that was read, the message
names the file and quotes that line as it stands in the text, and the mark below it is under the
column. -/
theorem points_into_source {fatal tracing colored commandLine : Bool} {path : String}
    {frames : Nat} {s t : Session} {source : String} {fault : Fault}
    (hs : (start { fatal, tracing, colored } path commandLine frames).Reached s)
    (h : (parse source).run s = .error (.fault fault) t ∨
      (add source).run s = .error (.fault fault) t) :
    ∃ place text, Lamlet.parse s.frames source = .error (.fault fault place) ∧
      PointsInto t.reporter path source fault place text := by
  obtain ⟨rfl, place, hparse⟩ := fault_of_run h
  obtain ⟨hplace, hfault⟩ := place_of_parse hparse
  have horigin := (worksOn_of_reached hs).origin_workingOn source
  obtain ⟨text, hpoints⟩ := pointsInto_of_place horigin hplace hfault
  exact ⟨place, text, hparse, hpoints⟩

/-- A session on a file that has read another text before. -/
def usedSession : Session := left ((parse "y = (").run (start {} "prog.lam" false 400))

theorem points_into_source_strayBracket :
    (start {} "prog.lam" false 400).Reached usedSession ∧
    (parse strayBracket).run usedSession
      = .error (.fault strayFault) (usedSession.workingOn strayBracket) ∧
    ∃ place text,
      Lamlet.parse usedSession.frames strayBracket = .error (.fault strayFault place) ∧
      PointsInto (usedSession.workingOn strayBracket).reporter "prog.lam" strayBracket strayFault
        place text := by
  have hreached : (start {} "prog.lam" false 400).Reached usedSession := .single (.parse "y = (")
  have hframes : usedSession.frames = 400 := by
    rw [usedSession, run_parse]
    split <;> rfl
  have hrun : (parse strayBracket).run usedSession
      = .error (.fault strayFault) (usedSession.workingOn strayBracket) := by
    rw [run_parse, hframes, parse_strayBracket]
    rfl
  exact ⟨hreached, hrun, points_into_source hreached (.inl hrun)⟩

end Session

end Lamlet
