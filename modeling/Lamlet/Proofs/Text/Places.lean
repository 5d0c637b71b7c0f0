import Mathlib.Algebra.GroupWithZero.Nat
import Mathlib.Data.List.Induction
import Lamlet.Place
import Lamlet.Text.Lines

/-!
# Lines and places

The lines of a text are found by splitting it; a reader counts them while it goes through
the text, character by character.  Both agree: the line that the reader counts is the number
of the line that it stands in, and its column is how far it is from the start of that line.

## Main definitions

* `lastLine` — the characters of a text after its last newline.
* `lineStart` — the offset at which a line starts.

## Main results

* `splitLines_append_eq` — the lines of two texts put together.
* `Place.start_advance` — **where a reader stands after a text.**
* `lineStart_add_length`, `getElem?_splitLines` — the line that the reader stands in.
-/

namespace Lamlet

namespace Text

/-! ### The lines of a text -/

theorem splitLines_ne_nil (cs : List Char) : splitLines cs ≠ [] := by
  cases cs with
  | nil => simp [splitLines]
  | cons c cs =>
    unfold splitLines
    split
    · simp
    · split <;> simp

/-- A character before a text is put before its first line, or ends a line of its own. -/
theorem splitLines_cons {c : Char} {cs first : List Char} {rest : List (List Char)}
    (h : splitLines cs = first :: rest) :
    splitLines (c :: cs) = if c = '\n' then [] :: first :: rest else (c :: first) :: rest := by
  simp [splitLines, h]

theorem splitLines_of_notMem {cs : List Char} (h : '\n' ∉ cs) : splitLines cs = [cs] := by
  induction cs with
  | nil => rfl
  | cons c cs ih =>
    obtain ⟨hc, hcs⟩ := List.ne_and_not_mem_of_not_mem_cons h
    rw [splitLines_cons (ih hcs), if_neg (Ne.symm hc)]

theorem splitLines_append {line : List Char} (h : '\n' ∉ line) (cs : List Char) :
    splitLines (line ++ '\n' :: cs) = line :: splitLines cs := by
  obtain ⟨first, rest, hlines⟩ := List.exists_cons_of_ne_nil (splitLines_ne_nil cs)
  induction line with
  | nil => rw [List.nil_append, splitLines_cons hlines, if_pos rfl, hlines]
  | cons c line ih =>
    obtain ⟨hc, hline⟩ := List.ne_and_not_mem_of_not_mem_cons h
    rw [List.cons_append, splitLines_cons (ih hline), if_neg (Ne.symm hc)]

/-- Only an empty last line is not typed. -/
theorem splitLines_eq_typedLines (cs : List Char) :
    splitLines cs = typedLines cs ∨ splitLines cs = typedLines cs ++ [[]] := by
  simp only [typedLines]
  split
  · next hlast =>
    obtain ⟨front, hfront⟩ := List.getLast?_eq_some_iff.1 hlast
    rw [hfront, List.dropLast_concat]
    exact .inr rfl
  · exact .inl rfl

/-- The characters of a text are in its lines, newlines aside. -/
theorem exists_mem_splitLines {c : Char} {cs : List Char} (h : c ∈ cs) (hc : c ≠ '\n') :
    ∃ line ∈ splitLines cs, c ∈ line := by
  induction cs with
  | nil => simp at h
  | cons d cs ih =>
    obtain ⟨first, rest, hlines⟩ := List.exists_cons_of_ne_nil (splitLines_ne_nil cs)
    rw [hlines] at ih
    rw [splitLines_cons hlines]
    by_cases hd : d = '\n'
    · -- a newline starts another line, and is in neither
      obtain ⟨line, hline, hmem⟩ := ih (List.mem_of_ne_of_mem (hd ▸ hc) h)
      exact ⟨line, by simp [hd, List.mem_cons.1 hline], hmem⟩
    · rw [if_neg hd]
      rcases List.mem_cons.1 h with rfl | hmem
      · exact ⟨c :: first, by simp, by simp⟩
      · obtain ⟨line, hline, hmem⟩ := ih hmem
        rcases List.mem_cons.1 hline with rfl | hrest
        · exact ⟨d :: line, by simp, by simp [hmem]⟩
        · exact ⟨line, by simp [hrest], hmem⟩

/-- Induction over the lines of a text. -/
theorem line_induction {motive : List Char → Prop}
    (last : ∀ line, '\n' ∉ line → motive line)
    (more : ∀ line cs, '\n' ∉ line → motive cs → motive (line ++ '\n' :: cs))
    (cs : List Char) : motive cs := by
  induction hlength : cs.length using Nat.strongRecOn generalizing cs with
  | ind length ih =>
    by_cases hnewline : '\n' ∈ cs
    · obtain ⟨line, rest, rfl, hline⟩ := List.eq_append_cons_of_mem hnewline
      refine more line rest hline (ih rest.length ?_ rest rfl)
      rw [← hlength, List.length_append, List.length_cons]
      omega
    · exact last cs hnewline

/-- There is one more line than there are newlines. -/
theorem length_splitLines (cs : List Char) : (splitLines cs).length = cs.count '\n' + 1 := by
  induction cs using line_induction with
  | last line hline => rw [splitLines_of_notMem hline, List.count_eq_zero.2 hline]; rfl
  | more line cs hline ih =>
    rw [splitLines_append hline, List.length_cons, ih, List.count_append, List.count_cons_self,
      List.count_eq_zero.2 hline]
    omega

/-- The lines have all characters of the text, but for the newlines after them. -/
theorem sum_length_splitLines (cs : List Char) :
    ((splitLines cs).map fun line => line.length + 1).sum = cs.length + 1 := by
  induction cs using line_induction with
  | last line hline => rw [splitLines_of_notMem hline]; simp
  | more line cs hline ih =>
    rw [splitLines_append hline, List.map_cons, List.sum_cons, ih, List.length_append,
      List.length_cons]
    omega

/-! ### The line that a text ends in -/

/-- The characters of a text after its last newline. -/
def lastLine (cs : List Char) : List Char := (splitLines cs).getLast (splitLines_ne_nil cs)

theorem splitLines_eq_concat (cs : List Char) :
    splitLines cs = (splitLines cs).dropLast ++ [lastLine cs] :=
  (List.dropLast_concat_getLast (splitLines_ne_nil cs)).symm

/-- The last line of a text goes on with the first one of the text after it. -/
theorem splitLines_append_eq {after first : List Char} {rest : List (List Char)}
    (hafter : splitLines after = first :: rest) (before : List Char) :
    splitLines (before ++ after)
      = (splitLines before).dropLast ++ (lastLine before ++ first) :: rest := by
  induction before using line_induction with
  | last line hline =>
    -- a text without a newline only lengthens the line behind it
    have hjoined : splitLines (line ++ after) = (line ++ first) :: rest := by
      induction line with
      | nil => exact hafter
      | cons c line ih =>
        obtain ⟨hc, hline⟩ := List.ne_and_not_mem_of_not_mem_cons hline
        rw [List.cons_append, splitLines_cons (ih hline), if_neg (Ne.symm hc)]
        rfl
    rw [hjoined]
    simp [lastLine, splitLines_of_notMem hline]
  | more line before hline ih =>
    have hne := splitLines_ne_nil before
    rw [List.append_assoc, List.cons_append, splitLines_append hline, ih]
    simp [lastLine, splitLines_append hline, List.dropLast_cons_of_ne_nil hne,
      List.getLast_cons hne]

/-- The last line of a text with one more character. -/
theorem lastLine_concat (cs : List Char) (c : Char) :
    lastLine (cs ++ [c]) = if c = '\n' then [] else lastLine cs ++ [c] := by
  by_cases hc : c = '\n'
  · have hlines : splitLines [c] = [] :: [[]] := by simp [splitLines, hc]
    rw [if_pos hc]
    simp [lastLine, splitLines_append_eq hlines cs]
  · have hlines : splitLines [c] = [c] :: [] := by simp [splitLines, hc]
    simp [lastLine, splitLines_append_eq hlines cs, hc]

/-! ### The line that a reader stands in -/

/-- The offset at which a line of a text starts.  Lines are counted from one. -/
def lineStart (cs : List Char) (line : Nat) : Nat :=
  (((splitLines cs).take (line - 1)).map fun line => line.length + 1).sum

/-- A newline ends every line but the last. -/
theorem length_dropLast_splitLines (cs : List Char) :
    (splitLines cs).dropLast.length = cs.count '\n' := by
  rw [List.length_dropLast, length_splitLines, Nat.add_sub_cancel]

/-- How far a reader is from the start of its line. -/
theorem lineStart_add_length (before after : List Char) :
    lineStart (before ++ after) (before.count '\n' + 1) + (lastLine before).length
      = before.length := by
  have hsum := sum_length_splitLines before
  rw [splitLines_eq_concat before, List.map_append, List.sum_append] at hsum
  simp only [List.map_cons, List.map_nil, List.sum_cons, List.sum_nil] at hsum
  obtain ⟨first, rest, hafter⟩ := List.exists_cons_of_ne_nil (splitLines_ne_nil after)
  rw [lineStart, Nat.add_sub_cancel, splitLines_append_eq hafter, ← length_dropLast_splitLines,
    List.take_left]
  omega

/-- The line that a reader stands in, up to the reader and after it. -/
theorem getElem?_splitLines (before after : List Char) :
    ∃ first, (splitLines (before ++ after))[before.count '\n']?
      = some (lastLine before ++ first) := by
  obtain ⟨first, rest, hafter⟩ := List.exists_cons_of_ne_nil (splitLines_ne_nil after)
  refine ⟨first, ?_⟩
  rw [splitLines_append_eq hafter, ← length_dropLast_splitLines]
  simp

end Text

open Text

/-- **Where a reader stands after a text:** in the line after the last newline. -/
theorem Place.start_advance (cs : List Char) :
    Place.start.advance cs = ⟨cs.length, cs.count '\n' + 1, (lastLine cs).length⟩ := by
  induction cs using List.reverseRecOn with
  | nil => rfl
  | append_singleton cs c ih =>
    rw [Place.advance_append, ih, Place.advance_cons, Place.advance_nil, Place.next,
      lastLine_concat, List.length_append, List.count_append]
    by_cases hc : c = '\n'
    · simp [hc]
    · simp [hc]

end Lamlet
