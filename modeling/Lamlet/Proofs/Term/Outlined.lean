import Lamlet.Term.Outline
import Lamlet.Proofs.Grammar.Shape
import Lamlet.Proofs.Number.Shown
import Lamlet.Proofs.Text.Quotation

/-!
# A term is read off its outline

The first line of an outline tells what the node is, but for the terms below it, and whether
there are any.  Every text on it ends where it ends: names and texts are quotations, and a
number ends at the bracket.  The outline of a term below is followed by a comma if another one
comes, and by a new line if none does.  So an outline belongs to one term only; its indentation
is not needed for that.

An operator without meaning is not told from the one with its symbol, and of a missing term
there may be no trace.  Neither occurs in a program that was read.

## Main definitions

* `Term.Meaningful` — a node is there, and its operator has a meaning.
* `Term.note`, `Term.remark` — the fields on the first line, and all that follows the title there.
* `Term.Alike` — two nodes differ at most in the terms below them.
* `Term.Parsed` — a term is a program that was read, or a part of one.

## Main results

* `Term.outline_eq_layOutline` — an outline is a line for the node and the outlines below it.
* `Term.alike_of_remark` — **the first line tells everything but the terms below.**
* `Term.separates_outline` — **a term is read off its outline**, whatever stands behind it.
* `Term.eq_of_outline_eq` — the outline identifies each program that can be read.
-/

namespace Lamlet

open Text

/-- An operator with a meaning is read off its symbol. -/
theorem Operator.eq_of_symbol_eq {op op' : Operator} (h : op ∈ known) (h' : op' ∈ known)
    (heq : op.symbol = op'.symbol) : op = op' := by
  have hsome := ofSymbol?_symbol h
  rw [heq, ofSymbol?_symbol h'] at hsome
  exact (Option.some.inj hsome).symm

namespace Term

variable {t u : Term} {depth : ℕ}

/-! ### Nodes with a meaning -/

/-- A node is there, and its operator has a meaning. -/
def Meaningful : Term → Prop
  | binary op _ _ => op ∈ Operator.known
  | missing => False
  | _ => True

theorem BuiltFrom.meaningful {ts : List Token} (h : t.BuiltFrom ts) : t.Meaningful := by
  cases t with
  | binary op left right => exact h
  | missing => exact h
  | _ => trivial

theorem Meaningful.isPresent (h : t.Meaningful) : t.isPresent = true := by
  cases t with
  | missing => exact h.elim
  | _ => rfl

theorem eq_missing (h : t.isPresent = false) : t = missing := by
  cases t with
  | missing => rfl
  | _ => cases h

/-! ### The lines of an outline -/

/-- The fields on the first line of an outline: there is at most one. -/
def note : Term → List String
  | number x => [field "value" x.text]
  | text s => [field "value" (quoted s)]
  | boolean b => [field "value" (truthText b)]
  | var name => [field "name" (quoted name)]
  | binary op _ _ => [field "operator" (quoted op.symbol)]
  | conditional _ _ alternative =>
    if alternative.isPresent then [] else [field "otherwise" "None"]
  | lambda parameters _ => [field "params" (quotedTuple parameters)]
  | call _ arguments => if arguments.isEmpty then [field "args" "()"] else []
  | block body => if body.isEmpty then [field "body" "()"] else []
  | _ => []

/-- The outline of a further term in a row. -/
def furtherLines (depth : ℕ) (t : Term) : List Char :=
  ',' :: '\n' :: (t.outline depth).toList

/-- The lines of an outline below the first one. -/
def linesBelow (depth : ℕ) : List Term → List Char
  | [] => []
  | t :: ts =>
    '\n' :: ((t.outline (depth + 1)).toList
      ++ (ts.flatMap (furtherLines (depth + 1)) ++ ['\n'] ++ ((indent depth).toList ++ [']', ')'])))

theorem toList_nodeLines (t : Term) (ts : List Term) :
    (nodeLines ((t :: ts).map (outline depth))).toList
      = '\n' :: ((t.outline depth).toList ++ ts.flatMap (furtherLines depth)) := by
  induction ts generalizing t with
  | nil => simp [nodeLines]
  | cons t' ts ih =>
    have hlines : nodeLines ((t :: t' :: ts).map (outline depth))
        = "\n" ++ t.outline depth ++ "," ++ nodeLines ((t' :: ts).map (outline depth)) := rfl
    rw [hlines, String.toList_append, ih]
    simp [furtherLines]

theorem outlineEach_eq_map {ts : List Term} (h : ∀ t ∈ ts, t.isPresent = true) :
    outlineEach depth ts = ts.map (outline depth) := by
  induction ts with
  | nil => rfl
  | cons t ts ih =>
    have ht := h t (List.mem_cons_self ..)
    have hts := ih fun u hu => h u (List.mem_cons_of_mem _ hu)
    rw [outlineEach, hts, present, if_pos ht]
    rfl

/-- **An outline has one line for the node and then the outlines below.** -/
theorem outline_eq_layOutline (ht : t.isPresent = true)
    (hunder : ∀ u ∈ t.under, u.isPresent = true) :
    t.outline depth = layOutline depth t.title t.note (t.under.map (outline (depth + 1))) := by
  cases t with
  | number x => rfl
  | text s => rfl
  | boolean b => rfl
  | var name => rfl
  | assign target value =>
    simp only [under, List.forall_mem_cons] at hunder
    simp [outline, missingField, present, hunder, title, note, under]
  | binary op left right =>
    simp only [under, List.forall_mem_cons] at hunder
    simp [outline, missingField, present, hunder, title, note, under]
  | conditional condition consequent alternative =>
    simp only [under, List.forall_mem_cons] at hunder
    -- an alternative that is missing has no field
    cases halternative : alternative.isPresent with
    | true => simp [outline, missingField, present, hunder, title, note, under, halternative]
    | false => simp [outline, missingField, present, hunder, title, note, under, halternative]
  | lambda parameters body =>
    simp only [under, List.forall_mem_cons] at hunder
    simp [outline, missingField, present, hunder, title, note, under]
  | call callee arguments =>
    simp only [under, List.forall_mem_cons] at hunder
    cases arguments with
    | nil =>
      simp [outline, outlineEach, missingField, rowField, present, hunder, title, note, under]
    | cons a arguments =>
      have hrow : outlineEach (depth + 1) (a :: arguments) = _ := outlineEach_eq_map hunder.2
      have ha := hunder.2 a (List.mem_cons_self ..)
      simp [outline, hrow, missingField, rowField, present, hunder.1, ha, title, note, under]
  | block body =>
    cases body with
    | nil => rfl
    | cons e body =>
      have hrow : outlineEach (depth + 1) (e :: body) = _ := outlineEach_eq_map hunder
      have he := hunder e (List.mem_cons_self ..)
      simp [outline, hrow, rowField, he, title, note, under]
  | missing => cases ht

/-- What the first line of an outline says after its title. -/
def remark (t : Term) : List Char :=
  (joinWith ", " t.note).toList
    ++ if t.under.isEmpty then [')'] else if t.note.isEmpty then "nodes=[".toList
      else ", nodes=[".toList

theorem toList_outline (ht : t.isPresent = true) (hunder : ∀ u ∈ t.under, u.isPresent = true) :
    (t.outline depth).toList = (indent depth).toList
      ++ (t.title.toList ++ '(' :: (t.remark ++ linesBelow depth t.under)) := by
  rw [outline_eq_layOutline ht hunder, remark]
  cases hbelow : t.under with
  | nil => simp [layOutline, linesBelow]
  | cons u us =>
    have hne : ((u :: us).map (outline (depth + 1))).isEmpty = false := rfl
    simp only [layOutline, hne, Bool.false_eq_true, if_false, String.toList_append,
      toList_nodeLines, linesBelow, List.isEmpty_cons]
    cases t.note with
    | nil => simp
    | cons s ss => simp

/-! ### What the first line tells -/

variable {name value : String} {r r' : List Char}

theorem remark_of_note (h : t.note = [field name value]) :
    t.remark = name.toList
      ++ '=' :: (value.toList ++ if t.under.isEmpty then [')'] else ", nodes=[".toList) := by
  rw [remark, h, joinWith, field, String.toList_append, String.toList_append, List.append_assoc,
    List.append_assoc]
  rfl

/-- What stands in the same field of two nodes is the same if it ends where it ends. -/
theorem eq_of_note {α : Type} {write : α → String} {a b : α}
    (h : t.remark ++ r = u.remark ++ r') (hleaf : t.under = [] ↔ u.under = [])
    (hsep : Separates (fun a => (write a).toList) a b) (ht : t.note = [field name (write a)])
    (hu : u.note = [field name (write b)]) : a = b ∧ r = r' := by
  have hempty : t.under.isEmpty = u.under.isEmpty := by
    rw [Bool.eq_iff_iff, List.isEmpty_iff, List.isEmpty_iff, hleaf]
  rw [remark_of_note ht, remark_of_note hu, hempty] at h
  simp only [List.append_assoc, List.cons_append] at h
  have hvalue := (List.cons.inj (List.append_cancel_left h)).2
  obtain ⟨rfl, hrest⟩ := hsep _ _ hvalue
  exact ⟨rfl, List.append_cancel_left hrest⟩

/-- Behind the same fields there is the same text, if both nodes are leaves or none is one. -/
theorem rest_of_note_eq (h : t.remark ++ r = u.remark ++ r')
    (hunder : t.under = [] ↔ u.under = []) (hnote : t.note = u.note) : r = r' := by
  have hempty : t.under.isEmpty = u.under.isEmpty := by
    rw [Bool.eq_iff_iff, List.isEmpty_iff, List.isEmpty_iff, hunder]
  rw [remark, remark, hnote, hempty] at h
  exact List.append_cancel_left h

/-- A node without a field is told from one with a field by the first letter. -/
theorem remark_ne (ht : t.note = []) (ht' : t.under ≠ []) (hu : u.note = [field name value])
    {c : Char} {cs : List Char} (hname : name.toList = c :: cs) (hc : c ≠ 'n') :
    t.remark ++ r ≠ u.remark ++ r' := by
  have hblank : t.remark = "nodes=[".toList := by simp [remark, ht, ht', joinWith]
  intro h
  rw [hblank, remark_of_note hu, hname] at h
  exact hc (List.cons.inj h).1.symm

/-- Two nodes differ at most in the terms below them, and if there are any then in both. -/
structure Alike (t u : Term) : Prop where
  leaf_iff : t.under = [] ↔ u.under = []
  eq_of_under : t.under = u.under → t = u

theorem Alike.refl (t : Term) : t.Alike t := ⟨Iff.rfl, fun _ => rfl⟩

theorem alike_of_conditional {c c' t t' e e' : Term}
    (h : (conditional c t e).remark ++ r = (conditional c' t' e').remark ++ r') :
    (conditional c t e).Alike (conditional c' t' e') ∧ r = r' := by
  have hleaf : (conditional c t e).under = [] ↔ (conditional c' t' e').under = [] := by
    simp [under]
  -- the remark tells whether there is an alternative
  cases he : e.isPresent with
  | true =>
    cases he' : e'.isPresent with
    | true =>
      refine ⟨⟨hleaf, by simp [under, he, he']⟩, ?_⟩
      exact rest_of_note_eq h hleaf (by simp [note, he, he'])
    | false =>
      exact absurd h (remark_ne (if_pos he) (by simp [under]) (if_neg (by simp [he'])) rfl
        (by decide))
  | false =>
    cases he' : e'.isPresent with
    | true =>
      exact absurd h.symm (remark_ne (if_pos he') (by simp [under]) (if_neg (by simp [he])) rfl
        (by decide))
    | false =>
      obtain rfl := eq_missing he
      obtain rfl := eq_missing he'
      exact ⟨⟨hleaf, by simp [under, he]⟩, rest_of_note_eq h hleaf rfl⟩

theorem alike_of_call {f f' : Term} {as as' : List Term}
    (h : (call f as).remark ++ r = (call f' as').remark ++ r') :
    (call f as).Alike (call f' as') ∧ r = r' := by
  have halike : (call f as).Alike (call f' as') := ⟨by simp [under], by simp [under]⟩
  -- the remark of a call without arguments is another one
  cases as with
  | nil =>
    cases as' with
    | nil => exact ⟨halike, rest_of_note_eq h halike.leaf_iff rfl⟩
    | cons a' as' =>
      exact absurd h.symm (remark_ne rfl (by simp [under]) rfl rfl (by decide))
  | cons a as =>
    cases as' with
    | nil => exact absurd h (remark_ne rfl (by simp [under]) rfl rfl (by decide))
    | cons a' as' => exact ⟨halike, rest_of_note_eq h halike.leaf_iff rfl⟩

theorem alike_of_block {body body' : List Term}
    (h : (block body).remark ++ r = (block body').remark ++ r') :
    (block body).Alike (block body') ∧ r = r' := by
  have heq : (block body).under = (block body').under → block body = block body' := by
    simp [under]
  cases body with
  | nil =>
    cases body' with
    | nil => exact ⟨.refl _, List.append_cancel_left h⟩
    | cons e' body' =>
      exact absurd h.symm (remark_ne rfl (by simp [under]) rfl rfl (by decide))
  | cons e body =>
    cases body' with
    | nil => exact absurd h (remark_ne rfl (by simp [under]) rfl rfl (by decide))
    | cons e' body' =>
      have hleaf : (block (e :: body)).under = [] ↔ (block (e' :: body')).under = [] := by
        simp [under]
      exact ⟨⟨hleaf, heq⟩, rest_of_note_eq h hleaf rfl⟩

/-- The title of a node has no bracket in it. -/
theorem notMem_title (t : Term) : '(' ∉ t.title.toList := by
  cases t <;> simp [title]

theorem separates_truthText (b b' : Bool) : Separates (fun b => (truthText b).toList) b b' := by
  intro r r' h
  cases b with
  | false =>
    cases b' with
    | false => exact ⟨rfl, List.append_cancel_left h⟩
    | true => exact absurd (List.cons.inj h).1 (by decide)
  | true =>
    cases b' with
    | false => exact absurd (List.cons.inj h).1 (by decide)
    | true => exact ⟨rfl, List.append_cancel_left h⟩

/-- **The first line tells everything but the terms below.**  With the same title, the same remark
behind it means that the nodes agree in their own fields; only what is on the lines below may
still be different. -/
theorem alike_of_remark (ht : t.Meaningful) (hu : u.Meaningful) (htitle : t.title = u.title)
    (h : t.remark ++ r = u.remark ++ r') : t.Alike u ∧ r = r' := by
  cases t with
  | number x =>
    cases u with
    | number y =>
      -- only the bracket tells where the number ends
      have hvalue : x.text.toList ++ [')'] ++ r = y.text.toList ++ [')'] ++ r' := by
        rw [remark_of_note rfl, remark_of_note rfl] at h
        simpa [under] using h
      obtain ⟨htext, rfl⟩ := separates_of_notMem x.notMem_text y.notMem_text r r' hvalue
      obtain rfl := Number.text_injective (String.toList_inj.1 htext)
      exact ⟨.refl _, rfl⟩
    | _ => simp [title] at htitle
  | text s =>
    cases u with
    | text s' =>
      obtain ⟨rfl, hrest⟩ := eq_of_note h Iff.rfl (separates_quoted s s') rfl rfl
      exact ⟨.refl _, hrest⟩
    | _ => simp [title] at htitle
  | boolean b =>
    cases u with
    | boolean b' =>
      obtain ⟨rfl, hrest⟩ := eq_of_note h Iff.rfl (separates_truthText b b') rfl rfl
      exact ⟨.refl _, hrest⟩
    | _ => simp [title] at htitle
  | var name =>
    cases u with
    | var name' =>
      obtain ⟨rfl, hrest⟩ := eq_of_note h Iff.rfl (separates_quoted name name') rfl rfl
      exact ⟨.refl _, hrest⟩
    | _ => simp [title] at htitle
  | assign target value =>
    cases u with
    | assign target' value' =>
      exact ⟨⟨by simp [under], by simp [under]⟩, List.append_cancel_left h⟩
    | _ => simp [title] at htitle
  | binary op left right =>
    cases u with
    | binary op' left' right' =>
      obtain ⟨hsymbol, hrest⟩ :=
        eq_of_note h (by simp [under]) (separates_quoted op.symbol op'.symbol) rfl rfl
      obtain rfl := Operator.eq_of_symbol_eq ht hu hsymbol
      exact ⟨⟨by simp [under], by simp [under]⟩, hrest⟩
    | _ => simp [title] at htitle
  | conditional condition consequent alternative =>
    cases u with
    | conditional condition' consequent' alternative' => exact alike_of_conditional h
    | _ => simp [title] at htitle
  | lambda parameters body =>
    cases u with
    | lambda parameters' body' =>
      obtain ⟨rfl, hrest⟩ :=
        eq_of_note h (by simp [under]) (separates_quotedTuple parameters parameters') rfl rfl
      exact ⟨⟨by simp [under], by simp [under]⟩, hrest⟩
    | _ => simp [title] at htitle
  | call callee arguments =>
    cases u with
    | call callee' arguments' => exact alike_of_call h
    | _ => simp [title] at htitle
  | block body =>
    cases u with
    | block body' => exact alike_of_block h
    | _ => simp [title] at htitle
  | missing => exact ht.elim

/-! ### What the outline tells -/

/-- Nothing that is further starts with a new line. -/
theorem furtherLines_append_ne (t : Term) : furtherLines depth t ++ r ≠ '\n' :: r' := by
  intro h
  exact absurd (List.cons.inj h).1 (by decide)

theorem linesBelow_cancel {us vs : List Term}
    (hsep : ∀ u ∈ us, ∀ v ∈ vs, Separates (fun t => (outline (depth + 1) t).toList) u v)
    (hleaf : us = [] ↔ vs = []) (h : linesBelow depth us ++ r = linesBelow depth vs ++ r') :
    us = vs ∧ r = r' := by
  cases us with
  | nil =>
    obtain rfl := hleaf.1 rfl
    exact ⟨rfl, h⟩
  | cons u us =>
    cases vs with
    | nil => cases hleaf.2 rfl
    | cons v vs =>
      simp only [linesBelow, List.cons_append, List.append_assoc] at h
      -- the first outlines are the same, and then the rows behind them are compared
      obtain ⟨rfl, hrow⟩ := hsep u (by simp) v (by simp) _ _ (List.cons.inj h).2
      have hfurther : ∀ w ∈ us, ∀ w' ∈ vs, Separates (furtherLines (depth + 1)) w w' := by
        intro w hw w' hw' r r' heq
        exact hsep w (List.mem_cons_of_mem _ hw) w' (List.mem_cons_of_mem _ hw') r r'
          (List.cons.inj (List.cons.inj heq).2).2
      obtain ⟨rfl, hend⟩ := separates_row (fun w _ _ _ => furtherLines_append_ne w) hfurther _ _
        (by simpa using hrow)
      have hbracket := List.append_cancel_left hend
      exact ⟨rfl, (List.cons.inj (List.cons.inj hbracket).2).2⟩

/-- **A term is read off its outline**, whatever stands behind it.  If two outlines with something
behind them are the same text, then the terms are the same and so is what stands behind.  In this
form it can be used for one part after the other in the row of outlines below a node. -/
theorem separates_outline (ht : t.Everywhere Meaningful) (hu : u.Everywhere Meaningful) :
    Separates (fun t => (outline depth t).toList) t u := by
  induction ht generalizing u depth with
  | @intro t hhere hbelow ih =>
    intro r r' h
    have hunder : ∀ v ∈ t.under, v.isPresent = true := fun v hv => (hbelow v hv).here.isPresent
    have hunder' : ∀ v ∈ u.under, v.isPresent = true := fun v hv => (hu.of_mem hv).here.isPresent
    simp only [toList_outline hhere.isPresent hunder, toList_outline hu.here.isPresent hunder',
      List.append_assoc, List.cons_append] at h
    -- the opening, the title, the remark and what is below are taken off in turn
    have hopening := List.append_cancel_left h
    obtain ⟨htitle, hremark⟩ := separates_of_notMem t.notMem_title u.notMem_title _ _
      (by simpa using hopening)
    obtain ⟨halike, hlines⟩ := alike_of_remark hhere hu.here (String.toList_inj.1 htitle) hremark
    obtain ⟨heq, rfl⟩ := linesBelow_cancel (fun v hv w hw => ih v hv (hu.of_mem hw))
      halike.leaf_iff hlines
    exact ⟨halike.eq_of_under heq, rfl⟩

/-! ### Programs that were read -/

/-- The term is a program that was read, or a part of one. -/
def Parsed (t : Term) : Prop :=
  ∃ frames source program, parse frames source = .ok program ∧ t.Occurs (.block program)

theorem Parsed.meaningful (h : t.Parsed) : t.Everywhere Meaningful := by
  obtain ⟨frames, source, program, hparse, hoccurs⟩ := h
  have hbuilt := (ParsesTo.of_parse hparse).builtFrom.2
  have hprogram : (block program).Everywhere Meaningful :=
    .intro trivial fun e he => (hbuilt e he).mono fun u hu => hu.meaningful
  exact hprogram.of_occurs hoccurs

/-- **The outline identifies the term**, at every depth, among the programs that can be read and
their parts. -/
theorem eq_of_outline_eq {t u : Term} (ht : t.Parsed) (hu : u.Parsed) (depth : ℕ)
    (h : t.outline depth = u.outline depth) : t = u := by
  have hsep : Separates (fun t => (outline depth t).toList) t u :=
    separates_outline ht.meaningful hu.meaningful
  exact (hsep [] [] (by simp only [h])).1

/-- A conditional with one branch, a call without arguments, and a text with an apostrophe. -/
def outlinedSample : List Term :=
  [.conditional (.call (.var "f") []) (.lambda ["x"] (.text "it's")) .missing]

/-- The outline of this program. -/
def sampleOutline : String :=
  "Program(nodes=[\n" ++
  "    If(otherwise=None, nodes=[\n" ++
  "        Call(args=(), nodes=[\n" ++
  "            Variable(name='f')\n" ++
  "        ]),\n" ++
  "        Lambda(params=('x',), nodes=[\n" ++
  "            String(value=\"it's\")\n" ++
  "        ])\n" ++
  "    ])\n" ++
  "])"

theorem eq_of_outline_eq_outlinedSample :
    ∃ program program',
      parse 100 "if f() then λ (x) \"it's\"" = .ok program ∧
      parse 100 "if \x7bf()\x7d then lambda (x) \x7b\"it's\"\x7d;" = .ok program' ∧
      (block program).outline 0 = sampleOutline ∧ (block program').outline 0 = sampleOutline ∧
      block program = block program' := by
  have htokens : (lex "if f() then λ (x) \"it's\"").tokens.map (·.token)
      = [.keyword .ifWord, .name "f", .mark .leftParen, .mark .rightParen, .keyword .thenWord,
        .keyword .lambdaLetter, .mark .leftParen, .name "x", .mark .rightParen,
        .text "it's"] := by
    decide +kernel
  have htrouble : (lex "if f() then λ (x) \"it's\"").trouble = none := by
    decide +kernel
  have htokens' : (lex "if \x7bf()\x7d then lambda (x) \x7b\"it's\"\x7d;").tokens.map (·.token)
      = [.keyword .ifWord, .mark .leftBrace, .name "f", .mark .leftParen, .mark .rightParen,
        .mark .rightBrace, .keyword .thenWord, .keyword .lambdaWord, .mark .leftParen, .name "x",
        .mark .rightParen, .mark .leftBrace, .text "it's", .mark .rightBrace,
        .mark .semicolon] := by
    decide +kernel
  have htrouble' : (lex "if \x7bf()\x7d then lambda (x) \x7b\"it's\"\x7d;").trouble = none := by
    decide +kernel
  have hparse : parse 100 "if f() then λ (x) \"it's\"" = .ok outlinedSample := by
    rw [parse, Lexed.parse, htokens, Lexed.fault?, htrouble]
    rfl
  have hparse' : parse 100 "if \x7bf()\x7d then lambda (x) \x7b\"it's\"\x7d;"
      = .ok outlinedSample := by
    rw [parse, Lexed.parse, htokens', Lexed.fault?, htrouble']
    rfl
  have houtline : (block outlinedSample).outline 0 = sampleOutline := by decide +kernel
  refine ⟨outlinedSample, outlinedSample, hparse, hparse', houtline, houtline, ?_⟩
  exact eq_of_outline_eq ⟨_, _, _, hparse, .self⟩ ⟨_, _, _, hparse', .self⟩ 0
    (houtline.trans houtline.symm)

end Term

end Lamlet
