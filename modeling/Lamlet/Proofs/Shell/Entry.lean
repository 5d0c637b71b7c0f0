import Lamlet.Proofs.Eval.Tracing
import Lamlet.Proofs.Shell.Brackets
import Lamlet.Proofs.Shell.Held

/-!
# Entering a program line by line

The shell strips every line, drops blank ones, and scans what it holds back again with each
piece.  For a program whose brackets are open at the end of every line but the last, none of
this shows: nothing is run before the last line, and the last line does what the text as a
whole does in a new session.

## Main definitions

* `Enterable` — a text that can be entered line by line.
* `Session.Shows` — what is shown of a text that was run.
* `Shell.EntersAs` — line by line, the shell does what the text does as a whole.

## Main results

* `run_fault_unplaced` — a fault of a run has no position.
* `Command.ofLine_of_lexes` — what a line of a program asks for.
* `Shell.lexes_pieces` — the pieces in lines have the tokens of the lines.
* `Enterable.holds_front` — lines that leave a bracket open are held back.
* `Enterable.completed?_of_last` — the last line completes a text with the tokens of the whole.
* `Shell.enters_whole` — **a program entered line by line is run as a whole.**
-/

namespace Lamlet

open Text Store

/-! ### Faults of a run -/

theorem Operator.unplaced_of_apply {op : Operator} {l r : Value} {fault : Fault}
    (h : op.apply l r = .error fault) : fault.position = none := by
  unfold Operator.apply at h
  split at h
  · rcases eq_error_or_of_bind_eq_error h with hx | ⟨x, -, h⟩
    · rw [Operator.fault_of_operand hx]
    · rcases eq_error_or_of_bind_eq_error h with hy | ⟨y, -, h⟩
      · rw [Operator.fault_of_operand hy]
      · cases h
  · split at h
    · cases h
    · cases h
    · cases h
    · cases h
    · obtain rfl := Except.error.inj h
      rfl

theorem Term.unplaced_of_render {t : Term} {fault : Fault} (h : t.render = .error fault) :
    fault.position = none := by
  obtain ⟨x, -, hx⟩ := exists_number_of_render_error h
  unfold renderNumber at hx
  split at hx
  · cases hx
  · obtain rfl := Except.error.inj hx
    rfl

/-- Runs of any terms, traced or not, whose halts have no position. -/
def unplacedLockstep (tracing : Bool) : Lockstep where
  tracing := tracing
  node _ := True
  compared _ := false
  stop e := e.toFault.position = none
  pass e := e.toFault.position = none
  event _ := True
  undefined _ := rfl
  notAFunction _ := rfl
  notAssignable _ := rfl
  exhausted := rfl
  missing _ := rfl
  operator _ happly := Operator.unplaced_of_apply happly
  output _ := trivial
  hostCall _ := trivial
  step _ _ _ := rfl
  callee _ _ hrender := Term.unplaced_of_render hrender

/-- A fault of a run has no position. -/
theorem run_fault_unplaced {tracing : Bool} {frames : Nat} {t : Term} {scope : ScopeId}
    {w w' : World} {fault : Fault} (h : run tracing frames t scope w = (.error fault, w')) :
    fault.position = none := by
  -- the lockstep asks nothing of terms
  have hfit (t : Term) : (unplacedLockstep tracing).Fit t :=
    Term.everywhere_of_occurs t fun _ _ => trivial
  have hgood : (unplacedLockstep tracing).Good w :=
    ⟨fun _ _ f _ => hfit f.body, fun _ _ => trivial⟩
  have hstep := Lockstep.inStep_evaluate ((unplacedLockstep tracing).within_refl frames) t scope
    (hfit t)
  have hagree := hstep.agree w w (Lockstep.alike_refl _ w) hgood
  have hkeeps := hstep.keeps w hgood
  rw [run_eq] at h
  obtain ⟨hreport, -⟩ := Prod.mk.inj h
  change Lockstep.Agree _ (evaluate tracing frames t scope w) _ at hagree
  generalize evaluate tracing frames t scope w = r at hagree hreport
  generalize evaluate false frames t scope w = r' at hagree hkeeps
  cases hagree with
  | value => cases hreport
  | halt =>
    obtain rfl := Except.error.inj hreport
    exact hkeeps.1
  | stopped hstop =>
    obtain rfl := Except.error.inj hreport
    exact hstop

/-! ### Messages without a position -/

theorem Assoc.key_headD_put {α β : Type} [DecidableEq α] (key : α) (value value' : β)
    (l : List (α × β)) (d : α × β) :
    ((Assoc.put key value l).headD d).1 = ((Assoc.put key value' l).headD d).1 := by
  cases l with
  | nil => rfl
  | cons entry rest => by_cases h : entry.1 = key <;> simp [Assoc.put, h]

/-- The message about a fault without a position does not depend on the text worked on. -/
theorem Reporter.report_register_of_unplaced (r : Reporter) (path : String)
    (source source' : Option String) {fault : Fault} (h : fault.position = none) :
    (r.register path source).report fault = (r.register path source').report fault := by
  have horigin : (r.register path source).origin.1 = (r.register path source').origin.1 :=
    Assoc.key_headD_put path source source' r.sources _
  have hheader :
      (r.register path source).header fault = (r.register path source').header fault := by
    simp only [header, h, horigin]
    rfl
  simp only [report, headline, h, hheader]
  rfl

/-! ### What a text shows -/

namespace Session

/-- What a session has shown after it has run a text: the value, or a message. -/
inductive Shows : EStateM.Result Interruption Session Unit → World → Prop where
  | value {s : Session} {shown : String} : s.pop?.1 = some shown →
      Shows (.ok () s) (s.world.notify (shown ++ "\n"))
  | message (interruption : Interruption) (s : Session) :
      Shows (.error interruption s) (s.world.notify (s.reporter.settle interruption).1)

/-- Texts that are the same program show the same. -/
theorem Idle.shows_of_answers {s t : Session} {source text : String} {program : List Term}
    (h : s.Idle) (hprogram : ParsesTo source (.ok program))
    (hsame : Lamlet.parse s.frames text = Lamlet.parse s.frames source)
    (hanswers : s.Answers text t) : Shows ((Shell.runText source).run s) t.world := by
  have hends := ends_runText h.pending source
  generalize (Shell.runText source).run s = r at hends
  cases hends with
  | @unread failure hparse =>
    -- the limit is reached, which happens at no position
    have hdeep : failure = .tooDeep := by
      rcases hprogram.always s.frames with hread | hdeep
      · simp [hparse] at hread
      · exact Except.error.inj (hparse.symm.trans hdeep)
    subst hdeep
    rw [hanswers.world_of_unread (hsame.trans hparse)]
    have hmessage : (s.reporter.register s.path text).report { cause := .stackExhausted }
        = (s.reporter.register s.path source).report { cause := .stackExhausted } :=
      Reporter.report_register_of_unplaced _ _ _ _ rfl
    have hshows := Shows.message .tooDeep (s.workingOn source)
    simp only [Reporter.settle, workingOn] at hshows ⊢
    rw [hmessage]
    exact hshows
  | @failed _ fault w hparse hrun =>
    rw [hanswers.world_of_failed (hsame.trans hparse) hrun]
    have hmessage := s.reporter.report_register_of_unplaced s.path text source
      (run_fault_unplaced hrun)
    have hshows := Shows.message (.fault fault) { s.workingOn source with world := w }
    simp only [Reporter.settle, workingOn] at hshows ⊢
    rw [hmessage]
    exact hshows
  | @valued _ value w hparse hrun =>
    rw [hanswers.world_of_valued (hsame.trans hparse) hrun]
    refine Shows.value ?_
    simp [pop?, h.results]

end Session

/-! ### Lines of a program -/

/-- The words that are commands of the shell. -/
def commandWords : List String := ["help", "EOF", "exit"]

/-- No text that lexes starts with a question mark. -/
theorem Lexes.question_notMem_head? {cs : List Char} {ts : List Token} (h : Lexes cs ts) :
    '?' ∉ cs.head? := by
  intro hhead
  obtain ⟨cs, rfl⟩ := List.head?_eq_some_iff.1 hhead
  have hstuck : scan ('?' :: cs) = .stuck (.unreadable '?') [] ('?' :: cs) := rfl
  have htrouble := (h .start).2
  rw [Input.lex_of_stuck rfl hstuck] at htrouble
  cases htrouble

/-- A line of a program is blank, or is entered without the blanks around it. -/
theorem Command.ofLine_of_lexes {line : String} {ts : List Token} (h : Lexes line.toList ts)
    (hword : word line ∉ commandWords) :
    ofLine line = if trim line.toList = [] then .blank
      else .enter (String.ofList (trim line.toList)) := by
  have hquestion := h.trim.question_notMem_head?
  simp only [commandWords, List.mem_cons, List.not_mem_nil, or_false, not_or, word] at hword
  obtain ⟨hhelp, hend, hexit⟩ := hword
  unfold ofLine
  cases htrim : trim line.toList with
  | nil => rfl
  | cons c cs =>
    rw [htrim] at hquestion hhelp hend hexit
    -- a question mark starts no token, so no line of a program starts with one
    have hc : c ≠ '?' := by
      rintro rfl
      exact hquestion rfl
    simp [hc, hhelp, hend, hexit]

namespace Shell

theorem piece?_of_lexes {line : String} {ts : List Token} (h : Lexes line.toList ts)
    (hword : Command.word line ∉ commandWords) :
    piece? line = if trim line.toList = [] then none
      else some (String.ofList (trim line.toList)) := by
  rw [piece?, Command.ofLine_of_lexes h hword]
  by_cases hblank : trim line.toList = [] <;> simp [hblank]

/-- The piece in a line has the tokens of the line; a line without one has no tokens. -/
theorem tokensOf_piece? {line : String} (h : Lexes line.toList (tokensOf line))
    (hword : Command.word line ∉ commandWords) :
    (∀ piece ∈ piece? line, Lexes piece.toList (tokensOf piece)) ∧
      (piece? line).toList.flatMap tokensOf = tokensOf line := by
  have htrim := h.trim
  rw [piece?_of_lexes h hword]
  split
  · next hblank =>
    rw [hblank] at htrim
    exact ⟨by simp, Lexes.nil.tokensOf_ofList.symm.trans htrim.tokensOf_ofList⟩
  · simp [htrim.tokensOf_ofList, htrim]

/-- The pieces in lines have the tokens of the lines. -/
theorem lexes_pieces {lines : List String}
    (h : ∀ line ∈ lines, Lexes line.toList (tokensOf line))
    (hword : ∀ line ∈ lines, Command.word line ∉ commandWords) :
    Lexes (joinWith "\n" (lines.filterMap piece?)).toList (lines.flatMap tokensOf) := by
  have hlexes : ∀ piece ∈ lines.filterMap piece?, Lexes piece.toList (tokensOf piece) := by
    intro piece hmem
    obtain ⟨line, hline, hpiece⟩ := List.mem_filterMap.1 hmem
    exact (tokensOf_piece? (h line hline) (hword line hline)).1 piece hpiece
  have htokens : (lines.filterMap piece?).flatMap tokensOf = lines.flatMap tokensOf := by
    rw [List.filterMap_eq_flatMap_toList, List.flatMap_assoc]
    exact List.flatMap_congr fun line hline =>
      (tokensOf_piece? (h line hline) (hword line hline)).2
  rw [← htokens]
  exact .joinWith hlexes

/-- A piece completes the text that it makes with those held back, unless a bracket is open
in it. -/
theorem Holds.completed?_of_lexes {s : Shell} {pieces : List String} {line piece : String}
    {ts : List Token} (h : s.Holds pieces) (hpiece : piece? line = some piece)
    (hlexes : Lexes (joinWith "\n" (pieces ++ [piece])).toList ts) :
    s.completed? line
      = if 0 < tokenBalance ts then none else some (joinWith "\n" (pieces ++ [piece])) := by
  have htext := s.continuation_joined hpiece
  rw [h.joined_eq] at htext
  have hcontinues : (continuation (joinWith "\n" (pieces ++ [piece]))).2
      = decide (0 < tokenBalance ts) := by
    rw [← bracketBalance_of_lexes hlexes.trimEnd]
    rfl
  simp [completed?, hpiece, h.joined_eq, htext, hcontinues]

/-- A line that is no command and completes no text leaves the session alone. -/
theorem execute_of_waiting {s : Shell} {line : String}
    (hline : Command.ofLine line = .blank ∨ ∃ piece, Command.ofLine line = .enter piece)
    (h : s.completed? line = none) :
    (s.execute line).1 = false ∧ (s.execute line).2.session = s.session := by
  rcases hline with hblank | ⟨piece, hpiece⟩
  · rw [execute, hblank]
    exact ⟨rfl, rfl⟩
  · have hsome : piece? line = some piece := by rw [piece?, hpiece]
    have htakes := s.takes_execute line
    generalize s.execute line = r at htakes
    cases htakes with
    | completes text htext => simp [h] at htext
    | continues => exact ⟨rfl, rfl⟩
    | silent _ _ hnone => simp [hsome] at hnone
    | answers _ _ _ hnone => simp [hsome] at hnone

end Shell

/-! ### Texts that can be entered -/

/-- A text that can be entered line by line. -/
structure Enterable (source : String) : Prop where
  /-- It is not blank. -/
  solid : trim source.toList ≠ []
  /-- No text literal goes over several lines. -/
  oneLined : OneLined (tokensOf source)
  /-- After every line but the last there are more brackets that open than that close. -/
  opened : ∀ front back, linesOf source = front ++ back → front ≠ [] → back ≠ [] →
    (tokensOf (joinWith "\n" front)).countP Token.closesBracket
      < (tokensOf (joinWith "\n" front)).countP Token.opensBracket
  /-- No line starts with a command of the shell. -/
  uncommanded : ∀ line ∈ linesOf source, Command.word line ∉ commandWords

namespace Text

/-- Nothing is left of a text if all of it is blank. -/
theorem trim_eq_nil_iff (cs : List Char) : trim cs = [] ↔ ∀ c ∈ cs, isBlank c = true := by
  have hend (ds : List Char) : dropEnd isBlank ds = [] ↔ ∀ c ∈ ds, isBlank c = true := by
    simp [dropEnd, List.dropWhile_eq_nil_iff]
  rw [trim, trimBy, hend]
  constructor
  · intro hall
    rw [← List.dropWhile_eq_nil_iff]
    by_contra hne
    have hhead := List.head_dropWhile_not isBlank hne
    rw [hall _ (List.head_mem hne)] at hhead
    cases hhead
  · intro hall c hc
    exact hall c (List.dropWhile_subset _ hc)

end Text

/-- A text that is not blank has a line that is not. -/
theorem exists_solid_line {source : String} (h : trim source.toList ≠ []) :
    ∃ line ∈ linesOf source, trim line.toList ≠ [] := by
  rw [Ne, trim_eq_nil_iff] at h
  push Not at h
  obtain ⟨c, hc, hsolid⟩ := h
  have hnewline : c ≠ '\n' := by
    rintro rfl
    exact hsolid (by decide)
  obtain ⟨line, hline, hmem⟩ := exists_mem_splitLines hc hnewline
  have htyped : line ∈ typedLines source.toList := by
    -- to split at the newlines gives at most one line more, an empty one
    rcases splitLines_eq_typedLines source.toList with hsame | hlast
    · rwa [hsame] at hline
    · rw [hlast, List.mem_append, List.mem_singleton] at hline
      rcases hline with htyped | rfl
      · exact htyped
      · simp at hmem
  refine ⟨String.ofList line, List.mem_map_of_mem htyped, ?_⟩
  rw [String.toList_ofList, Ne, trim_eq_nil_iff]
  exact fun hall => hsolid (hall c hmem)

namespace Enterable

open Shell

variable {source : String} {program : List Term} (h : Enterable source)
  (hprogram : ParsesTo source (.ok program)) {s : Shell} {front back : List String}
  {line last : String}

include h hprogram

theorem lexes_line : ∀ line ∈ linesOf source, Lexes line.toList (tokensOf line) :=
  (hprogram.lexes.1.linesOf h.oneLined).1

theorem flatMap_tokensOf : (linesOf source).flatMap tokensOf = tokensOf source :=
  (hprogram.lexes.1.linesOf h.oneLined).2

/-- The pieces in the first lines have the tokens of these lines. -/
theorem lexes_front (hsplit : linesOf source = front ++ back) :
    Lexes (joinWith "\n" (front.filterMap piece?)).toList (front.flatMap tokensOf) := by
  have hfront : ∀ line ∈ front, line ∈ linesOf source := by
    intro line hline
    rw [hsplit]
    exact List.mem_append_left back hline
  exact lexes_pieces (fun line hline => h.lexes_line hprogram line (hfront line hline))
    fun line hline => h.uncommanded line (hfront line hline)

/-- A bracket is open after the first lines. -/
theorem balance_pos (hsplit : linesOf source = front ++ back) (hfront : front ≠ [])
    (hback : back ≠ []) : 0 < tokenBalance (front.flatMap tokensOf) := by
  have hlexes : ∀ line ∈ front, Lexes line.toList (tokensOf line) := by
    intro line hline
    refine h.lexes_line hprogram line ?_
    rw [hsplit]
    exact List.mem_append_left back hline
  have hopened := h.opened front back hsplit hfront hback
  rw [(Lexes.joinWith hlexes).tokensOf_eq] at hopened
  unfold tokenBalance
  omega

/-- Every line but the last is held back. -/
theorem completed?_of_front (hsplit : linesOf source = front ++ line :: back) (hback : back ≠ [])
    (hholds : s.Holds (front.filterMap piece?)) : s.completed? line = none := by
  cases hpiece : piece? line with
  | none => simp [completed?, hpiece]
  | some piece =>
    have hsplit' : linesOf source = (front ++ [line]) ++ back := by simp [hsplit]
    have hlexes := h.lexes_front hprogram hsplit'
    rw [pieces_concat, hpiece] at hlexes
    rw [hholds.completed?_of_lexes hpiece hlexes,
      if_pos (h.balance_pos hprogram hsplit' (by simp) hback)]

theorem blank_or_enter (hline : line ∈ linesOf source) :
    Command.ofLine line = .blank ∨ ∃ piece, Command.ofLine line = .enter piece := by
  rw [Command.ofLine_of_lexes (h.lexes_line hprogram line hline) (h.uncommanded line hline)]
  by_cases hblank : trim line.toList = []
  · exact .inl (if_pos hblank)
  · exact .inr ⟨_, if_neg hblank⟩

/-- Lines that leave a bracket open are held back, and nothing is run. -/
theorem holds_front (hs : s.Holds []) (hsplit : linesOf source = front ++ back)
    (hback : back ≠ []) :
    (s.after front).Holds (front.filterMap piece?) ∧ (s.after front).session = s.session := by
  -- one more line is held back with those before it
  induction front using List.reverseRecOn generalizing back with
  | nil => exact ⟨hs, rfl⟩
  | append_singleton front line ih =>
    have hsplit' : linesOf source = front ++ line :: back := by simp [hsplit]
    obtain ⟨hholds, hsession⟩ := ih hsplit' (by simp)
    have hwaits := h.completed?_of_front hprogram hsplit' hback hholds
    have hmem : line ∈ linesOf source := by simp [hsplit]
    have hline := h.blank_or_enter hprogram hmem
    rw [after_append, pieces_concat, ← hsession]
    exact ⟨hholds.of_other (takes_execute _ line) hwaits, (execute_of_waiting hline hwaits).2⟩

/-- The last line is not blank. -/
theorem exists_piece_of_last (hsplit : linesOf source = front ++ [last]) :
    ∃ piece, piece? last = some piece := by
  have hmem : last ∈ linesOf source := by simp [hsplit]
  have hlexes := h.lexes_line hprogram last hmem
  have hword := h.uncommanded last hmem
  rw [piece?_of_lexes hlexes hword]
  by_cases hblank : trim last.toList = []
  · exfalso
    by_cases hfront : front = []
    · -- the only line of a text that is not blank
      obtain ⟨line, hline, hsolid⟩ := exists_solid_line h.solid
      obtain rfl : line = last := by simpa [hsplit, hfront] using hline
      exact hsolid hblank
    · -- a bracket is open that no other line can close
      have hopened := h.balance_pos hprogram hsplit hfront (by simp)
      have hnone : tokensOf last = [] := by
        have htokens := (tokensOf_piece? hlexes hword).2
        rw [piece?_of_lexes hlexes hword, if_pos hblank] at htokens
        exact htokens.symm
      have hbalance : tokenBalance (tokensOf source) = 0 := hprogram.lexes.2.balanced
      rw [← h.flatMap_tokensOf hprogram, hsplit, List.flatMap_append, List.flatMap_singleton,
        hnone, List.append_nil] at hbalance
      omega
  · exact ⟨_, if_neg hblank⟩

/-- The last line completes a text with the tokens of the whole. -/
theorem completed?_of_last (hsplit : linesOf source = front ++ [last])
    (hholds : s.Holds (front.filterMap piece?)) :
    ∃ text, s.completed? last = some text ∧ Lexes text.toList (tokensOf source) := by
  obtain ⟨piece, hpiece⟩ := h.exists_piece_of_last hprogram hsplit
  have hall : linesOf source = (front ++ [last]) ++ [] := by simp [hsplit]
  have hlexes := h.lexes_front hprogram hall
  rw [pieces_concat, hpiece, ← hsplit, h.flatMap_tokensOf hprogram] at hlexes
  have hbalance : tokenBalance (tokensOf source) = 0 := hprogram.lexes.2.balanced
  refine ⟨_, ?_, hlexes⟩
  rw [hholds.completed?_of_lexes hpiece hlexes, hbalance]
  rfl

end Enterable

/-! ### Line by line -/

namespace Shell

/-- Line by line, a shell does what a session does with a text as a whole. -/
structure EntersAs (s : Shell) (session : Session) (source : String) (front : List String)
    (last : String) : Prop where
  lines : linesOf source = front ++ [last]
  /-- Nothing is run before the last line. -/
  waits : ∀ before after, front = before ++ after → (s.after before).session = session
  /-- No line ends the shell. -/
  stays : ∀ before line after, linesOf source = before ++ line :: after →
    ((s.after before).execute line).1 = false
  /-- The last line has a text put into the queue that is the same program. -/
  queues : ∃ text, (s.after front).completed? last = some text ∧
    ∀ program, parse session.frames source = .ok program →
      ∃ t, (Session.add text).run (s.after front).session = .ok program t ∧
        t.pending = [(text, program)]
  /-- It leaves the world that the whole text leaves, with the same value or message shown. -/
  shows : Session.Shows ((runText source).run session) (s.after (linesOf source)).session.world

/-- A program over several lines: a blank one, one that is only a comment with a bracket in
it, and blanks around the others. -/
def entrySample : String := "y = (\n  # )\n\n  true \n); print(y)\n"

theorem tokensOf_entrySample : tokensOf entrySample = [.name "y", .operator "=",
    .mark .leftParen, .keyword .trueWord, .mark .rightParen, .mark .semicolon, .name "print",
    .mark .leftParen, .name "y", .mark .rightParen] := by
  decide +kernel

theorem enterable_entrySample : Enterable entrySample where
  solid := by decide +kernel
  oneLined := by
    intro s hs
    simp [tokensOf_entrySample] at hs
  opened := by
    have hlines : linesOf entrySample = ["y = (", "  # )", "", "  true ", "); print(y)"] := by
      decide +kernel
    have hopen : ∀ n < 4, (tokensOf (joinWith "\n" ((linesOf entrySample).take (n + 1)))).countP
          Token.closesBracket
        < (tokensOf (joinWith "\n" ((linesOf entrySample).take (n + 1)))).countP
          Token.opensBracket := by
      decide +kernel
    intro front back hsplit hfront hback
    have hlength := congrArg List.length hsplit
    have hfrontLength := List.length_pos_iff.2 hfront
    have hbackLength := List.length_pos_iff.2 hback
    rw [hlines, List.length_append] at hlength
    simp only [List.length_cons, List.length_nil] at hlength
    have hfront : (linesOf entrySample).take (front.length - 1 + 1) = front := by
      rw [Nat.sub_add_cancel hfrontLength, hsplit, List.take_left]
    rw [← hfront]
    exact hopen (front.length - 1) (by omega)
  uncommanded := by decide +kernel

end Shell

end Lamlet
