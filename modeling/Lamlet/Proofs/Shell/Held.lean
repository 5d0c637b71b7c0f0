import Lamlet.Proofs.Shell.Lines

/-!
# The text that the shell holds back

The shell holds back the pieces of a program that is not complete, and its prompt says
whether it does.  What is held back is always made of the lines since the last complete text,
whatever other lines came between.

## Main definitions

* `Shell.SinceLast` — the lines since the last one that completed a text.
* `Shell.Holds` — the pieces that a shell holds back.
* `Shell.Orderly` — the state of the shell between two lines.

## Main results

* `Shell.continuation_joined` — nothing is cut off pieces that are put together.
* `Shell.Holds.of_completed`, `Shell.Holds.of_other` — what a line does to the pieces held back.
* `Shell.holds_after` — they are those of the lines since the last complete text.
* `Shell.orderly_after` — **the shell is in order after every line.**
-/

namespace Lamlet

open Text

/-! ### Texts that end in no blank -/

namespace Text

theorem dropEnd_concat {p : Char → Bool} {c : Char} (h : p c = false) (cs : List Char) :
    dropEnd p (cs ++ [c]) = cs ++ [c] := by
  simp [dropEnd, h]

/-- What is left when a text is cut off at the end is empty, or ends in another character. -/
theorem exists_concat_of_dropEnd {p : Char → Bool} {cs : List Char} (h : dropEnd p cs ≠ []) :
    ∃ init c, dropEnd p cs = init ++ [c] ∧ p c = false := by
  unfold dropEnd at h ⊢
  cases hrest : cs.reverse.dropWhile p with
  | nil => simp [hrest] at h
  | cons c rest =>
    refine ⟨rest.reverse, c, List.reverse_cons, ?_⟩
    have hhead := List.head_dropWhile_not p (l := cs.reverse) (by simp [hrest])
    simpa [hrest] using hhead

theorem joinWith_concat (separator : String) {ss : List String} (h : ss ≠ []) (s : String) :
    joinWith separator (ss ++ [s]) = joinWith separator ss ++ separator ++ s := by
  induction ss with
  | nil => exact absurd rfl h
  | cons t ts ih =>
    cases ts with
    | nil => rfl
    | cons u us =>
      have hrest := ih (List.cons_ne_nil u us)
      simp only [List.cons_append] at hrest ⊢
      simp only [joinWith, hrest, String.append_assoc]

end Text

namespace Shell

/-- A piece of a program has been trimmed, and is not empty. -/
theorem exists_concat_of_piece? {line piece : String} (h : piece? line = some piece) :
    ∃ init c, piece.toList = init ++ [c] ∧ isBlank c = false := by
  obtain ⟨htrim, hne⟩ := Command.eq_trim_of_ofLine (ofLine_of_piece? h)
  rw [htrim]
  exact exists_concat_of_dropEnd hne

/-- One more line adds the piece in it, if there is one. -/
theorem pieces_concat (lines : List String) (line : String) :
    (lines ++ [line]).filterMap piece? = lines.filterMap piece? ++ (piece? line).toList := by
  rw [List.filterMap_append]
  cases hpiece : piece? line <;> simp [hpiece]

/-- Nothing is cut off pieces that are put together. -/
theorem continuation_joined (s : Shell) {line piece : String} (h : piece? line = some piece) :
    (continuation (s.joined piece)).1 = s.joined piece := by
  obtain ⟨init, c, hpiece, hc⟩ := exists_concat_of_piece? h
  have hjoined : ∃ front, (s.joined piece).toList = front ++ [c] := by
    unfold joined
    split
    · exact ⟨init, hpiece⟩
    · refine ⟨s.held.toList ++ '\n' :: init, ?_⟩
      simp [hpiece]
  obtain ⟨front, hfront⟩ := hjoined
  rw [continuation, hfront, trimEnd, dropEnd_concat hc, ← hfront]
  exact String.ofList_toList

/-! ### Pieces held back -/

/-- The shell holds these pieces back, and its prompt shows that. -/
inductive Holds (s : Shell) : List String → Prop where
  | nothing : s.held = "" → s.prompt = .ready → Holds s []
  | pieces {pieces : List String} : pieces ≠ [] → s.held ≠ "" → s.held = joinWith "\n" pieces →
      continuation s.held = (s.held, true) → s.prompt = .continuing → Holds s pieces

namespace Holds

variable {s : Shell} {pieces : List String}

theorem held_eq (h : s.Holds pieces) : s.held = joinWith "\n" pieces := by
  cases h with
  | nothing hheld => exact hheld
  | pieces _ _ hheld => exact hheld

theorem prompt_iff (h : s.Holds pieces) : s.prompt.text = ". " ↔ s.held ≠ "" := by
  cases h with
  | nothing hheld hprompt => simp [hheld, hprompt, Prompt.text]
  | pieces _ hheld _ _ hprompt => simp [hheld, hprompt, Prompt.text]

theorem continuation_eq (h : s.Holds pieces) (hheld : s.held ≠ "") :
    continuation s.held = (s.held, true) := by
  cases h with
  | nothing hempty _ => exact absurd hempty hheld
  | pieces _ _ _ hcontinues _ => exact hcontinues

theorem joined_eq (h : s.Holds pieces) (piece : String) :
    s.joined piece = joinWith "\n" (pieces ++ [piece]) := by
  cases h with
  | nothing hheld _ => rw [joined, if_pos hheld]; rfl
  | pieces hne hheld hjoin _ _ => rw [joined, if_neg hheld, joinWith_concat _ hne, hjoin]

theorem notify (h : s.Holds pieces) (text : String) : (s.notify text).Holds pieces := by
  cases h with
  | nothing hheld hprompt => exact .nothing hheld hprompt
  | pieces hne hheld hjoin hcontinues hprompt => exact .pieces hne hheld hjoin hcontinues hprompt

/-- A line that is held back is one more piece. -/
theorem continues (h : s.Holds pieces) {line piece text : String}
    (hpiece : piece? line = some piece) (htext : continuation (s.joined piece) = (text, true)) :
    ({ s with held := text, prompt := .continuing } : Shell).Holds (pieces ++ [piece]) := by
  obtain rfl : s.joined piece = text := by rw [← s.continuation_joined hpiece, htext]
  have hne : s.joined piece ≠ "" := by
    -- an empty text has no open bracket
    intro hempty
    rw [hempty] at htext
    exact absurd htext (by decide)
  exact .pieces (by simp) hne (h.joined_eq piece) htext rfl

theorem of_completed {line text : String} {r : Bool × Shell} (htakes : s.Takes line r)
    (htext : s.completed? line = some text) : r.2.Holds [] := by
  cases htakes with
  | completes => exact .nothing rfl rfl
  | continues _ _ hnone => simp [hnone] at htext
  | silent _ hnone => simp [hnone] at htext
  | answers _ _ hnone => simp [hnone] at htext

/-- A line that completes no text adds the piece in it, if there is one. -/
theorem of_other (h : s.Holds pieces) {line : String} {r : Bool × Shell}
    (htakes : s.Takes line r) (htext : s.completed? line = none) :
    r.2.Holds (pieces ++ (piece? line).toList) := by
  cases htakes with
  | completes _ hsome => simp [hsome] at htext
  | continues piece _ _ hpiece hcontinues =>
    rw [hpiece]
    exact h.continues hpiece hcontinues
  | silent _ _ hpiece =>
    rw [hpiece, Option.toList_none, List.append_nil]
    exact h
  | answers _ _ _ hpiece =>
    rw [hpiece, Option.toList_none, List.append_nil]
    exact h.notify _

end Holds

/-! ### The lines since the last complete text -/

/-- Some lines, split after the last one that completed a text. -/
structure SinceLast (s : Shell) (lines before since : List String) : Prop where
  split : lines = before ++ since
  /-- The first part ends with a line that completed a text, if there is a line in it. -/
  completed : before = [] ∨ ∃ earlier last text, before = earlier ++ [last] ∧
    (s.after earlier).completed? last = some text
  /-- No line of the second part did. -/
  waiting : ∀ earlier line later, since = earlier ++ line :: later →
    (s.after (before ++ earlier)).completed? line = none

namespace SinceLast

variable {s : Shell} {lines before since : List String}

theorem nil (s : Shell) : s.SinceLast [] [] [] :=
  ⟨rfl, .inl rfl, fun earlier line later h => by simp at h⟩

theorem of_completed {line text : String} (h : (s.after lines).completed? line = some text) :
    s.SinceLast (lines ++ [line]) (lines ++ [line]) [] where
  split := (List.append_nil _).symm
  completed := .inr ⟨lines, line, text, rfl, h⟩
  waiting earlier line later h := by simp at h

theorem concat (h : s.SinceLast lines before since) {line : String}
    (hline : (s.after lines).completed? line = none) :
    s.SinceLast (lines ++ [line]) before (since ++ [line]) where
  split := by rw [h.split, List.append_assoc]
  completed := h.completed
  waiting earlier line' later hsplit := by
    rcases List.eq_nil_or_concat later with rfl | ⟨later, last, rfl⟩
    · obtain ⟨rfl, hlast⟩ := List.append_inj' hsplit rfl
      obtain rfl : line = line' := List.head_eq_of_cons_eq hlast
      rw [← h.split]
      exact hline
    · rw [List.concat_eq_append, ← List.cons_append, ← List.append_assoc] at hsplit
      exact h.waiting earlier line' later (List.append_inj' hsplit rfl).1

end SinceLast

/-- The text held back after some lines. -/
theorem holds_after (reporter : Reporter) (frames : Nat) (lines : List String) :
    ∃ before since, (start reporter frames).SinceLast lines before since ∧
      ((start reporter frames).after lines).Holds (since.filterMap piece?) := by
  refine after_induction (motive := fun lines s => ∃ before since,
    (start reporter frames).SinceLast lines before since ∧
    s.Holds (since.filterMap piece?)) ?_ ?_ lines
  · exact ⟨[], [], .nil _, .nothing rfl rfl⟩
  · rintro lines line ⟨before, since, hsince, hholds⟩
    have htakes := ((start reporter frames).after lines).takes_execute line
    -- the line completes a text, and nothing is held any more, or its piece is added
    cases htext : ((start reporter frames).after lines).completed? line with
    | some text => exact ⟨_, [], .of_completed htext, .of_completed htakes htext⟩
    | none =>
      refine ⟨before, since ++ [line], hsince.concat htext, ?_⟩
      rw [pieces_concat]
      exact hholds.of_other htakes htext

end Shell

/-! ### The file that messages name -/

namespace Session

/-- The file of the session is the first one that the reporter knows. -/
def Leads (s : Session) : Prop := ∃ source rest, s.reporter.sources = (s.path, source) :: rest

theorem Leads.workingOn {s : Session} (h : s.Leads) (source : Option String) :
    (s.workingOn source).Leads := by
  obtain ⟨old, rest, hsources⟩ := h
  exact ⟨source, rest, by simp [Session.workingOn, Reporter.register, hsources, Assoc.put]⟩

theorem Leads.of_answers {s t : Session} {source : String} (h : s.Leads)
    (hanswers : s.Answers source t) : t.Leads := by
  cases hanswers with
  | unread _ => exact h.workingOn source
  | failed _ _ => exact h.workingOn source
  | valued _ _ => exact h.workingOn none

theorem Leads.origin_eq {s : Session} (h : s.Leads) : s.reporter.origin.1 = s.path := by
  obtain ⟨source, rest, hsources⟩ := h
  rw [Reporter.origin, hsources]
  rfl

end Session

namespace Shell

/-! ### The shell in order -/

theorem leads_after (reporter : Reporter) (h : reporter.sources = []) (frames : Nat)
    (lines : List String) : ((start reporter frames).after lines).session.Leads := by
  refine after_induction (motive := fun _ s => s.session.Leads) ?_ ?_ lines
  · exact ⟨none, [], by simp [start, Session.start, Reporter.register, h, Assoc.put]⟩
  · intro lines line ih
    have hidle := (idle_after reporter frames lines).1
    refine (takes_execute _ line).keeps hidle (P := Session.Leads) ih ?_ ?_
    · exact fun _ _ h => ih.of_answers h
    · exact fun _ => ih

/-- The state of the shell after some lines. -/
structure Orderly (s : Shell) (lines : List String) : Prop where
  /-- Nothing waits to be run. -/
  pending : (s.after lines).session.pending = []
  /-- No value is left. -/
  results : (s.after lines).session.results = []
  /-- So what the next line to complete a text shows is about that text. -/
  shown : ∀ line text, (s.after lines).completed? line = some text →
    (s.after lines).session.Answers text ((s.after lines).execute line).2.session
  /-- Other lines show no value. -/
  unshown : ∀ line, (s.after lines).completed? line = none →
    ((s.after lines).execute line).2.session = (s.after lines).session ∨
    ∃ text, (text = helpText ∨ text = "\n") ∧
      ((s.after lines).execute line).2.session = (s.after lines).session.notify text
  /-- The prompt tells whether a text is held back. -/
  prompt : (s.after lines).prompt.text = ". " ↔ (s.after lines).held ≠ ""
  /-- The text held back is made of the pieces since the last complete one. -/
  held : ∃ before since, s.SinceLast lines before since ∧
    (s.after lines).held = joinWith "\n" (since.filterMap piece?)
  /-- It has no blanks at its end, and needs a continuation. -/
  continues : (s.after lines).held ≠ "" →
    continuation (s.after lines).held = ((s.after lines).held, true)
  /-- Messages name the file of the session. -/
  origin : (s.after lines).session.reporter.origin.1 = (s.after lines).session.path

/-- **The shell is in order after every line**, whatever the lines were. -/
theorem orderly_after (fatal tracing colored : Bool) (frames : Nat) (lines : List String) :
    (start { fatal, tracing, colored } frames).Orderly lines := by
  have hleads := leads_after { fatal, tracing, colored } rfl frames lines
  obtain ⟨hidle, -⟩ := idle_after { fatal, tracing, colored } frames lines
  obtain ⟨before, since, hsince, hholds⟩ := holds_after { fatal, tracing, colored } frames lines
  refine ⟨hidle.pending, hidle.results, ?_, ?_, hholds.prompt_iff, ?_, hholds.continuation_eq,
    hleads.origin_eq⟩
  · intro line text htext
    exact (takes_execute _ line).answers_of_completed? hidle htext
  · intro line htext
    exact (takes_execute _ line).session_eq htext
  · exact ⟨before, since, hsince, hholds.held_eq⟩

example : ((start {} 400).after ["1", "x = (", " ", "help", "  2 +  "]).held = "x = (\n2 +" := by
  decide +kernel

end Shell

end Lamlet
