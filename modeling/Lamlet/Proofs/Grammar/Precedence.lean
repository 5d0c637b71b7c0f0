import Lamlet.Proofs.Grammar.Operands
import Lamlet.Proofs.Token.Layout

/-!
# Precedence climbing

Operands with operators between them can be joined in many ways.  In an *ordered* tree no
operator has one below it on the left that binds less, or one below it on the right that does
not bind tighter.  There is one ordered tree for each row of operands and operators, and it is
the one that climbing builds.

A climb with a threshold goes on as long as operators bind tighter than the threshold.  It
keeps the tree on its left ordered, and the next operator loose enough to go on top of it.  The
climbs under way have higher and higher thresholds, so that there are no more of them than there
are precedences: however long a row is, its operators take a few frames at most.

## Main definitions

* `Infix.known`, `Infix.symbol` — what may stand between two operands, and its spelling.
* `OperatorTree`, `OperatorTree.Ordered` — operands joined by operators, and precedence.
* `Link`, `chain` — the tokens of operands with operators between them.
* `OperatorTree.Fits` — an ordered tree of these operands and operators.
* `precedences`, `climbsAbove` — how many climbs can be under way.
* `Ready`, `Climbed` — what a climb starts with and what it comes to.

## Main results

* `OperatorTree.Ordered.unique` — **an ordered tree is determined by its operands and
  operators from left to right.**
* `climb_links` — a climb builds an ordered tree.
* `program_chain` — the tokens of a chain are read as the tree that fits them.
* `parsesTo_chain` — **precedence climbing builds the one ordered tree.**
-/

namespace Lamlet

namespace Infix

/-- How it is spelled. -/
def symbol : Infix → String
  | assign => "="
  | operator op => op.symbol

/-- All that may stand between two operands: the sign of assignment, and the operators that
have a meaning. -/
def known : List Infix := assign :: Operator.known.map operator

/-- What may stand between two operands is read back from its spelling. -/
theorem ofSymbol?_symbol {op : Infix} (h : op ∈ known) : ofSymbol? op.symbol = some op := by
  revert op
  decide

end Infix

namespace Grammar

/-! ### Trees of operators -/

/-- Operands joined by operators.  The operands are leaves, whatever they hold. -/
inductive OperatorTree where
  /-- An operand. -/
  | leaf (operand : Term)
  /-- An operator between two trees. -/
  | node (op : Infix) (left right : OperatorTree)

namespace OperatorTree

/-- The leftmost operand. -/
def first : OperatorTree → Term
  | leaf e => e
  | node _ left _ => left.first

/-- The operators from left to right, each with the operand after it. -/
def steps : OperatorTree → List (Infix × Term)
  | leaf _ => []
  | node op left right => left.steps ++ (op, right.first) :: right.steps

/-- The operator that is joined last. -/
def root? : OperatorTree → Option Infix
  | leaf _ => none
  | node op _ _ => some op

/-- The term of a tree: an assignment for each sign of assignment, and an operation for each
operator. -/
def term : OperatorTree → Term
  | leaf e => e
  | node .assign left right => .assign left.term right.term
  | node (.operator op) left right => .binary op left.term right.term

/-- Every operator binds at most as tightly as one that is its left child, and less tightly than
one that is its right child. -/
def Ordered : OperatorTree → Prop
  | leaf _ => True
  | node op left right =>
    left.Ordered ∧ right.Ordered ∧
      (∀ op' ∈ left.root?, op.precedence ≤ op'.precedence) ∧
      ∀ op' ∈ right.root?, op.precedence < op'.precedence

theorem term_node (op : Infix) (left right : OperatorTree) :
    (node op left right).term = join op left.term right.term := by
  cases op <;> rfl

/-- What bounds the root of an ordered tree bounds all its operators. -/
theorem Ordered.forall_steps {tree : OperatorTree} (h : tree.Ordered) {p : Nat}
    (hroot : ∀ op ∈ tree.root?, p ≤ op.precedence) :
    ∀ step ∈ tree.steps, p ≤ step.1.precedence := by
  induction tree with
  | leaf e => simp [steps]
  | node op left right ihleft ihright =>
    obtain ⟨hleft, hright, hle, hlt⟩ := h
    have hop : p ≤ op.precedence := hroot op rfl
    intro step hstep
    -- on the left nothing is looser than the root, and on the right all is tighter
    rcases List.mem_append.1 hstep with hstep | hstep
    · exact ihleft hleft (fun op' hop' => Nat.le_trans hop (hle op' hop')) step hstep
    · rcases List.mem_cons.1 hstep with rfl | hstep
      · exact hop
      · exact ihright hright
          (fun op' hop' => Nat.le_trans hop (Nat.le_of_lt (hlt op' hop'))) step hstep

/-- Two ordered trees do not split the same operators at different places: the root of the one
would stand on the right of the other root, and so bind tighter, and the other root on its left,
and so bind at least as tightly. -/
theorem Ordered.not_crossed {op op' : Infix} {left right left' right' : OperatorTree}
    (h : (node op left right).Ordered) (h' : (node op' left' right').Ordered)
    {e e' : Term} (hleft : (op, e) ∈ left'.steps) (hright : (op', e') ∈ right.steps) : False := by
  have hlt : op.precedence + 1 ≤ op'.precedence := h.2.1.forall_steps h.2.2.2 _ hright
  have hle : op'.precedence ≤ op.precedence := h'.1.forall_steps h'.2.2.1 _ hleft
  omega

/-- **An ordered tree is determined by its operands and operators from left to right.**  The root
is the last among the loosest operators: on its left nothing is looser and on its right all is
tighter.  So two ordered trees over the same row split it at the same place. -/
theorem Ordered.unique {tree tree' : OperatorTree} (h : tree.Ordered) (h' : tree'.Ordered)
    (hfirst : tree.first = tree'.first) (hsteps : tree.steps = tree'.steps) : tree = tree' := by
  induction tree generalizing tree' with
  | leaf e =>
    cases tree' with
    | leaf e' => exact congrArg leaf hfirst
    | node op' left' right' => simp [steps] at hsteps
  | node op left right ihleft ihright =>
    cases tree' with
    | leaf e' => simp [steps] at hsteps
    | node op' left' right' =>
      -- the roots split the operators at the same place
      rcases append_eq_append_cons hsteps with ⟨mid, hmid, hrest⟩ | ⟨mid, hmid, hrest⟩
      · have hleft : (op', right'.first) ∈ left.steps := by simp [hmid]
        have hright : (op, right.first) ∈ right'.steps := by simp [hrest]
        exact (h'.not_crossed h hleft hright).elim
      · cases mid with
        | nil =>
          obtain ⟨hstep, hright⟩ := List.cons.inj hrest
          obtain ⟨rfl, hfirst'⟩ := Prod.mk.inj hstep
          rw [List.append_nil] at hmid
          rw [ihleft h.1 h'.1 hfirst hmid.symm, ihright h.2.1 h'.2.1 hfirst' hright]
        | cons step mid =>
          rw [List.cons_append] at hrest
          obtain ⟨rfl, htail⟩ := List.cons.inj hrest
          have hleft : (op, right.first) ∈ left'.steps := by simp [hmid]
          have hright : (op', right'.first) ∈ right.steps := by simp [htail]
          exact (h.not_crossed h' hleft hright).elim

/-- A tree with more operators and operands, each joined to all that is before it. -/
def fromLeft (left : OperatorTree) (more : List (Infix × Term)) : OperatorTree :=
  more.foldl (fun tree step => node step.1 tree (leaf step.2)) left

theorem first_fromLeft (left : OperatorTree) (more : List (Infix × Term)) :
    (left.fromLeft more).first = left.first := by
  induction more generalizing left with
  | nil => rfl
  | cons step more ih => exact ih (node step.1 left (leaf step.2))

theorem steps_fromLeft (left : OperatorTree) (more : List (Infix × Term)) :
    (left.fromLeft more).steps = left.steps ++ more := by
  induction more generalizing left with
  | nil => exact (List.append_nil _).symm
  | cons step more ih =>
    calc (left.fromLeft (step :: more)).steps
      _ = (left.steps ++ [(step.1, step.2)]) ++ more := ih (node step.1 left (leaf step.2))
      _ = left.steps ++ step :: more := by simp

/-- Operators that bind alike are in order if they are joined from the left. -/
theorem Ordered.fromLeft {p : Nat} {more : List (Infix × Term)}
    (hmore : ∀ step ∈ more, step.1.precedence = p) {left : OperatorTree} (h : left.Ordered)
    (hroot : ∀ op ∈ left.root?, op.precedence = p) : (left.fromLeft more).Ordered := by
  induction more generalizing left with
  | nil => exact h
  | cons step more ih =>
    have hstep : step.1.precedence = p := hmore step List.mem_cons_self
    refine ih (fun step' hmem => hmore step' (List.mem_cons_of_mem _ hmem)) ?_ ?_
    · refine ⟨h, trivial, fun op hop => ?_, fun op hop => by cases hop⟩
      exact Nat.le_of_eq (hstep.trans (hroot op hop).symm)
    · intro op hop
      obtain rfl := Option.some.inj hop
      exact hstep

end OperatorTree

/-! ### Chains -/

/-- An operator and the operand after it. -/
structure Link where
  /-- The operator. -/
  op : Infix
  /-- It has a meaning. -/
  known : op ∈ Infix.known
  /-- The operand. -/
  operand : Operand

namespace Link

/-- The tokens of a link. -/
def tokens (l : Link) : List Token := .operator l.op.symbol :: l.operand.word

/-- A link as a tree holds it. -/
def step (l : Link) : Infix × Term := (l.op, l.operand.term)

end Link

/-- The tokens of links one after another. -/
def linkTokens (links : List Link) : List Token := links.flatMap Link.tokens

/-- The tokens of operands with operators between them. -/
def chain (first : Operand) (links : List Link) : List Token := first.word ++ linkTokens links

/-- The operands of a chain. -/
def operands (first : Operand) (links : List Link) : List Operand :=
  first :: links.map (·.operand)

/-- An ordered tree that has the operands and operators of a chain from left to right. -/
structure OperatorTree.Fits (tree : OperatorTree) (first : Operand) (links : List Link) :
    Prop where
  first_eq : tree.first = first.term
  steps_eq : tree.steps = links.map Link.step
  ordered : tree.Ordered

theorem OperatorTree.Fits.unique {tree tree' : OperatorTree} {first : Operand}
    {links : List Link} (h : tree.Fits first links) (h' : tree'.Fits first links) :
    tree = tree' :=
  h.ordered.unique h'.ordered (h.first_eq.trans h'.first_eq.symm)
    (h.steps_eq.trans h'.steps_eq.symm)

/-- Operators that bind alike are joined from the left. -/
theorem OperatorTree.Fits.eq_fromLeft {tree : OperatorTree} {first : Operand} {links : List Link}
    (h : tree.Fits first links) {p : Nat} (hlinks : ∀ l ∈ links, l.op.precedence = p) :
    tree = (leaf first.term).fromLeft (links.map Link.step) := by
  have hordered : ((leaf first.term).fromLeft (links.map Link.step)).Ordered := by
    refine Ordered.fromLeft (p := p) ?_ trivial fun op hop => by cases hop
    intro step hstep
    obtain ⟨l, hl, rfl⟩ := List.mem_map.1 hstep
    exact hlinks l hl
  exact h.unique ⟨first_fromLeft _ _, steps_fromLeft _ _, hordered⟩

theorem linkTokens_cons (l : Link) (links : List Link) :
    linkTokens (l :: links) = .operator l.op.symbol :: (l.operand.word ++ linkTokens links) := rfl

/-! ### Climbs inside climbs -/

/-- The precedences there are. -/
def precedences : List Nat := [1, 2, 3, 7, 10, 20]

theorem precedence_mem {op : Infix} (h : op ∈ Infix.known) : op.precedence ∈ precedences := by
  revert op
  decide

/-- The precedences above a threshold: a climb with that threshold and the climbs inside it are
no more than these when an operand is read. -/
def climbsAbove (threshold : Nat) : Nat := precedences.countP (threshold < ·)

theorem climbsAbove_lt {threshold p : Nat} (h : threshold < p) (hp : p ∈ precedences) :
    climbsAbove p < climbsAbove threshold := by
  have hmono (l : List Nat) : l.countP (p < ·) ≤ l.countP (threshold < ·) :=
    List.countP_mono_left fun q _ hq => by
      rw [decide_eq_true_eq] at hq ⊢
      exact Nat.lt_trans h hq
  -- the precedence itself is above the lower threshold only
  obtain ⟨front, back, hsplit⟩ := List.append_of_mem hp
  have hfront := hmono front
  have hback := hmono back
  simp only [climbsAbove, hsplit, List.countP_append, List.countP_cons, h, Nat.lt_irrefl,
    decide_true, decide_false, if_true, Bool.false_eq_true, if_false]
  omega

/-- No call follows an operand of a chain. -/
theorem calls_linkTokens (inner : Reader Term) (e : Term) (links : List Link) :
    calls inner (linkTokens links) e (linkTokens links) = .ok (e, linkTokens links) := by
  cases links <;> rfl

/-! ### Climbing -/

/-- What a climb starts with: an ordered tree of operators that bind tighter than the threshold,
and a next operator that can go on top of it. -/
structure Ready (threshold : Nat) (left : OperatorTree) (links : List Link) : Prop where
  ordered : left.Ordered
  tighter : ∀ op ∈ left.root?, threshold < op.precedence
  looser : ∀ op ∈ left.root?, ∀ l ∈ links.head?, l.op.precedence ≤ op.precedence

/-- What a climb comes to: an ordered tree that has taken up some of the links, and a next
operator that does not bind tighter than the threshold. -/
structure Climbed (threshold : Nat) (left : OperatorTree) (links : List Link)
    (tree : OperatorTree) (more : List Link) : Prop where
  ordered : tree.Ordered
  tighter : ∀ op ∈ tree.root?, threshold < op.precedence
  looser : ∀ l ∈ more.head?, l.op.precedence ≤ threshold
  first_eq : tree.first = left.first
  steps_eq : tree.steps ++ more.map Link.step = left.steps ++ links.map Link.step
  suffix : more <:+ links

theorem ready_leaf (threshold : Nat) (e : Term) (links : List Link) :
    Ready threshold (.leaf e) links := by
  refine ⟨trivial, ?_, ?_⟩
  · intro op hop
    cases hop
  · intro op hop
    cases hop

/-- A climb that ends where it starts. -/
theorem Ready.climbed {threshold : Nat} {left : OperatorTree} {links : List Link}
    (h : Ready threshold left links) (hlooser : ∀ l ∈ links.head?, l.op.precedence ≤ threshold) :
    Climbed threshold left links left links :=
  ⟨h.ordered, h.tighter, hlooser, rfl, rfl, List.suffix_refl links⟩

/-- After a round the operator is on top, and the climb can go on. -/
theorem Ready.node {threshold : Nat} {left right : OperatorTree} {l : Link}
    {links more : List Link} (h : Ready threshold left (l :: links))
    (hlt : threshold < l.op.precedence)
    (hright : Climbed l.op.precedence (.leaf l.operand.term) links right more) :
    Ready threshold (.node l.op left right) more := by
  refine ⟨⟨h.ordered, hright.ordered, fun op hop => h.looser op hop l rfl, hright.tighter⟩, ?_, ?_⟩
  · intro op hop
    obtain rfl := Option.some.inj hop
    exact hlt
  · intro op hop l' hl'
    obtain rfl := Option.some.inj hop
    exact hright.looser l' hl'

/-- A round and the climb after it are one climb. -/
theorem Climbed.round {threshold : Nat} {left right tree : OperatorTree} {l : Link}
    {links more rest : List Link}
    (hright : Climbed l.op.precedence (.leaf l.operand.term) links right more)
    (hrest : Climbed threshold (.node l.op left right) more tree rest) :
    Climbed threshold left (l :: links) tree rest := by
  refine ⟨hrest.ordered, hrest.tighter, hrest.looser, hrest.first_eq, ?_, ?_⟩
  · calc tree.steps ++ rest.map Link.step
      _ = (left.steps ++ (l.op, right.first) :: right.steps) ++ more.map Link.step := hrest.steps_eq
      _ = left.steps ++ (l.op, right.first) :: (right.steps ++ more.map Link.step) := by simp
      _ = left.steps ++ l.step :: links.map Link.step := by
        rw [hright.first_eq, hright.steps_eq]
        rfl
  · exact (hrest.suffix.trans hright.suffix).trans (List.suffix_cons l links)

/-- **A climb builds an ordered tree,** if its frames are enough for the operands of the links and
for the climbs inside it.  It takes links for as long as they bind tighter than the threshold, and
leaves the others to the climb around it.  A climb inside another one has a higher threshold, so
there are never more under way than there are precedences. -/
theorem climb_links {frames threshold : Nat} {left : OperatorTree} {links : List Link}
    (hread : ∀ l ∈ links, ∀ frames', frames ≤ frames' + climbsAbove threshold → ∀ rest,
      atom (nested frames') (l.operand.word ++ rest)
        = calls (nested frames' 3) rest l.operand.term rest)
    (hready : Ready threshold left links) :
    ∃ tree more, Climbed threshold left links tree more ∧
      climb (nested frames) (linkTokens links) threshold left.term (linkTokens links)
        = .ok (tree.term, linkTokens more) := by
  -- the climb inside a round and the climb after it both see fewer links
  induction hn : links.length using Nat.strongRecOn
    generalizing frames links threshold left with
  | ind n ih =>
    rw [climb_eq (consumes_nested frames)]
    cases links with
    | nil => exact ⟨left, [], hready.climbed (fun l hl => by cases hl), rfl⟩
    | cons l links =>
      rw [linkTokens_cons, nextInfix?_operator (Infix.ofSymbol?_symbol l.known)]
      by_cases hlt : threshold < l.op.precedence
      · rw [if_pos hlt]
        have hlength : links.length < n := by
          rw [← hn, List.length_cons]
          omega
        -- inside there is a frame less, and a precedence less that is above the threshold
        have habove := climbsAbove_lt hlt (precedence_mem l.known)
        have hinside : ∀ l' ∈ links, ∀ frames', frames - 1 ≤ frames' + climbsAbove l.op.precedence →
            ∀ rest, atom (nested frames') (l'.operand.word ++ rest)
              = calls (nested frames' 3) rest l'.operand.term rest :=
          fun l' hl' frames' hle => hread l' (List.mem_cons_of_mem l hl') frames' (by omega)
        obtain ⟨right, more, hright, hclimb⟩ :=
          ih links.length hlength hinside (ready_leaf l.op.precedence l.operand.term links) rfl
        have hmore : more.length < n := Nat.lt_of_le_of_lt hright.suffix.length_le hlength
        obtain ⟨tree, rest, hrest, hclimb'⟩ := ih more.length hmore
          (fun l' hl' => hread l' (List.mem_cons_of_mem l (hright.suffix.subset hl')))
          (hready.node hlt hright) rfl
        refine ⟨tree, rest, hright.round hrest, ?_⟩
        have hoperand := hread l List.mem_cons_self (frames - 1) (by omega) (linkTokens links)
        simp only [below_nested, hoperand, calls_linkTokens]
        show (climb _ _ l.op.precedence (OperatorTree.leaf l.operand.term).term _ >>= _) = _
        rw [hclimb, ← hclimb', OperatorTree.term_node]
        rfl
      · rw [if_neg hlt]
        refine ⟨left, l :: links, hready.climbed ?_, rfl⟩
        intro l' hl'
        obtain rfl := Option.some.inj hl'
        exact Nat.le_of_not_lt hlt

/-- **The tokens of a chain are read as the tree that fits them,** with a frame for each
precedence besides those in which its operands are read on their own. -/
theorem program_chain {frames : Nat} {first : Operand} {links : List Link}
    (h : ∀ o ∈ operands first links, program frames o.word ≠ .error .tooDeep) :
    ∃ tree : OperatorTree, tree.Fits first links ∧
      program (frames + precedences.length) (chain first links) = .ok [tree.term] := by
  cases frames with
  | zero =>
    refine absurd ?_ (h first List.mem_cons_self)
    rw [program_eq first.closed.ne_nil]
    rfl
  | succ frames =>
    have hall : climbsAbove 0 = 6 := by decide
    have hread : ∀ l ∈ links, ∀ frames', frames + 3 ≤ frames' + climbsAbove 0 → ∀ rest,
        atom (nested frames') (l.operand.word ++ rest)
          = calls (nested frames' 3) rest l.operand.term rest := by
      intro l hl frames' hle
      refine l.operand.atom_eq (h l.operand (List.mem_cons_of_mem first ?_)) (by omega)
      exact List.mem_map_of_mem hl
    obtain ⟨tree, more, hclimbed, hclimb⟩ :=
      climb_links hread (ready_leaf 0 first.term links)
    -- no operator binds as little as the lowest threshold
    obtain rfl : more = [] := by
      cases more with
      | nil => rfl
      | cons l more =>
        have hle : l.op.precedence ≤ 0 := hclimbed.looser l rfl
        have hpos := precedence_pos (Infix.ofSymbol?_symbol l.known)
        omega
    refine ⟨tree, ⟨hclimbed.first_eq, by simpa [OperatorTree.steps] using hclimbed.steps_eq,
      hclimbed.ordered⟩, ?_⟩
    have hne : chain first links ≠ [] := by
      simp [chain, first.closed.ne_nil]
    have hatom : atom (nested (frames + 3)) (chain first links)
        = .ok (first.term, linkTokens links) := by
      rw [chain, first.atom_eq (h first List.mem_cons_self) (by omega), calls_linkTokens]
    -- the expression takes a frame, its operation two, and the operands and the climb another
    have hoperation : operation ((nested (frames + 6)).below 2) (chain first links)
        = .ok (tree.term, []) := by
      rw [operation, below_nested, below_nested]
      show (atom (nested (frames + 3)) (chain first links) >>= _) = _
      rw [hatom]
      exact hclimb
    have hexpression : expression (frames + 1 + precedences.length) (chain first links)
        = .ok (tree.term, []) := by
      show (operation ((nested (frames + 6)).below 2) (chain first links) >>= _) = _
      rw [hoperation]
      rfl
    rw [program_eq hne, hexpression]
    rfl

/-- The operands of a chain are no longer than the chain. -/
theorem length_le_of_mem_operands {first o : Operand} {links : List Link}
    (h : o ∈ operands first links) : o.word.length ≤ (chain first links).length := by
  rw [chain, List.length_append]
  rcases List.mem_cons.1 h with rfl | h
  · exact Nat.le_add_right _ _
  · obtain ⟨l, hl, rfl⟩ := List.mem_map.1 h
    obtain ⟨front, back, rfl⟩ := List.append_of_mem hl
    simp only [linkTokens, Link.tokens, List.flatMap_append, List.flatMap_cons, List.length_append,
      List.length_cons]
    omega

end Grammar

/-! ### Whole texts -/

open Grammar

/-- **Precedence climbing builds the one ordered tree.**  A text of operands that are closed to
the right, with operators between them, is read as the tree that has them from left to right and
in which an operator has no looser one on its left and only tighter ones on its right; each
operand is read as it is on its own.  However long the text is, its operators take no more
frames than there are precedences: it is read within every limit that leaves so many besides
those of its operands.  So operators that bind alike, signs of assignment too, are joined from
the left. -/
theorem parsesTo_chain {source : String} {first : Operand} {links : List Link}
    (htrouble : (lex source).trouble = none) (htokens : tokensOf source = chain first links) :
    (∀ o ∈ operands first links, unlimitedProgram o.word = .ok [o.term]) ∧
    ∃ tree : OperatorTree, tree.Fits first links ∧
      (∀ tree' : OperatorTree, tree'.Fits first links → tree' = tree) ∧
      ParsesTo source (.ok [tree.term]) ∧
      (∀ frames, (∀ o ∈ operands first links, program frames o.word ≠ .error .tooDeep) →
        parse (frames + precedences.length) source = .ok [tree.term]) ∧
      ∀ p, (∀ l ∈ links, l.op.precedence = p) →
        tree = (OperatorTree.leaf first.term).fromLeft (links.map Link.step) := by
  -- here is a limit that surely suffices, so that there is a tree
  have hunlimited : ∀ o ∈ operands first links,
      program (8 * (chain first links).length + 1) o.word ≠ .error .tooDeep := by
    intro o ho
    have hle := length_le_of_mem_operands ho
    rw [program_eq_unlimitedProgram (by omega), o.program_word]
    simp
  obtain ⟨tree, hfits, hprogram⟩ := program_chain hunlimited
  rw [program_eq_unlimitedProgram (by omega)] at hprogram
  refine ⟨fun o _ => o.program_word, tree, hfits, fun tree' hfits' => hfits'.unique hfits,
    .of_tokens htokens htrouble hprogram, fun frames hframes => ?_, fun p => hfits.eq_fromLeft⟩
  -- any other limit that suffices finds a tree as well, hence the same one
  obtain ⟨tree', hfits', hprogram'⟩ := program_chain hframes
  rw [hfits'.unique hfits, ← htokens] at hprogram'
  exact Lexed.parse_eq_ok_iff.2 ⟨htrouble, hprogram'⟩

/-- A name as an operand. -/
def Grammar.Operand.ofName (n : String) : Operand := ⟨[.name n], .name n⟩

/-- Assignments, operators of two precedences, and operands in brackets and with a call. -/
def linkSample : List Link :=
  have hassign : Infix.ofSymbol? "=" = some .assign := by decide
  [⟨.assign, by decide, .ofName "b"⟩, ⟨.assign, by decide, .ofName "c"⟩,
    ⟨.operator .sub, by decide, .ofName "d"⟩,
    ⟨.operator .mul, by decide,
      ⟨.mark .leftParen :: ([.name "e"] ++ .operator "=" :: [.name "g"] ++ [.mark .rightParen]),
        .grouped (.joined (.operand (.uncalled (.name "e"))) hassign (.uncalled (.name "g")))⟩⟩,
    ⟨.operator .sub, by decide,
      ⟨[.name "f"] ++ .mark .leftParen :: ([.name "x"] ++ [.mark .rightParen]),
        .called (.name "f") (.row (.item (.operand (.uncalled (.name "x")))))⟩⟩]

/-- The tree of the sample. -/
def treeSample : OperatorTree :=
  .node .assign (.node .assign (.leaf (.var "a")) (.leaf (.var "b")))
    (.node (.operator .sub)
      (.node (.operator .sub) (.leaf (.var "c"))
        (.node (.operator .mul) (.leaf (.var "d")) (.leaf (.assign (.var "e") (.var "g")))))
      (.leaf (.call (.var "f") [.var "x"])))

theorem parsesTo_chain_linkSample :
    (lex "a = b = c - d * (e = g) - f(x)").trouble = none ∧
    tokensOf "a = b = c - d * (e = g) - f(x)" = chain (.ofName "a") linkSample ∧
    treeSample.Fits (.ofName "a") linkSample ∧
    treeSample.term = .assign (.assign (.var "a") (.var "b"))
      (.binary .sub
        (.binary .sub (.var "c") (.binary .mul (.var "d") (.assign (.var "e") (.var "g"))))
        (.call (.var "f") [.var "x"])) ∧
    ParsesTo "a = b = c - d * (e = g) - f(x)" (.ok [treeSample.term]) ∧
    parse (8 + precedences.length) "a = b = c - d * (e = g) - f(x)" = .ok [treeSample.term] := by
  have htrouble : (lex "a = b = c - d * (e = g) - f(x)").trouble = none := by decide +kernel
  have htokens : tokensOf "a = b = c - d * (e = g) - f(x)"
      = chain (.ofName "a") linkSample := by decide +kernel
  have hfits : treeSample.Fits (.ofName "a") linkSample := by
    refine ⟨rfl, rfl, ?_⟩
    simp [treeSample, OperatorTree.Ordered, OperatorTree.root?, Infix.precedence,
      Operator.precedence]
  have hdeep : ∀ o ∈ operands (.ofName "a") linkSample,
      program 8 o.word ≠ .error .tooDeep := by
    simp only [operands, linkSample, List.map_cons, List.map_nil, List.forall_mem_cons]
    refine ⟨?_, ?_, ?_, ?_, ?_, ?_, fun o ho => by cases ho⟩ <;> rintro ⟨⟩
  obtain ⟨-, tree, -, hunique, hparses, hwithin, -⟩ := parsesTo_chain htrouble htokens
  rw [← hunique _ hfits] at hparses hwithin
  exact ⟨htrouble, htokens, hfits, rfl, hparses, hwithin _ hdeep⟩

end Lamlet
