import Lamlet.Proofs.Grammar.Limit

/-!
# What programs are built of

Every node of a term that the grammar reads comes from the tokens: numbers, texts and
names are those of tokens, operators have a meaning, blocks hold several expressions, and
an expression is missing only as the second branch of a conditional.

## Main definitions

* `Term.under` — the terms right below a term.
* `Term.Occurs` — a term occurs in another one.
* `Term.Everywhere` — a property holds of a term and of all terms below it.
* `Term.BuiltFrom` — a single node comes from the given tokens.

## Main results

* `Grammar.builds_expression` — the reader of expressions builds terms of its tokens.
* `ParsesTo.builtFrom` — **every node of a program comes from the tokens of its text.**
-/

namespace Lamlet

namespace Term

/-! ### All nodes of a term -/

/-- The terms right below a term, in the order of the text.  A conditional without a
second branch has none there. -/
def under : Term → List Term
  | assign target value => [target, value]
  | binary _ left right => [left, right]
  | conditional condition consequent alternative =>
    condition :: consequent :: if alternative.isPresent then [alternative] else []
  | lambda _ body => [body]
  | call callee arguments => callee :: arguments
  | block body => body
  | _ => []

/-- The first term is the second one, or lies somewhere below it. -/
inductive Occurs (u : Term) : Term → Prop where
  | self : Occurs u u
  | deeper {t v : Term} : v ∈ t.under → Occurs u v → Occurs u t

theorem Occurs.trans {t u v : Term} (h : u.Occurs v) (h' : v.Occurs t) : u.Occurs t := by
  induction h' with
  | self => exact h
  | deeper hv _ ih => exact .deeper hv ih

/-- The property holds of a term and of all terms below it. -/
inductive Everywhere (p : Term → Prop) : Term → Prop where
  | intro {t : Term} : p t → (∀ u ∈ t.under, Everywhere p u) → Everywhere p t

namespace Everywhere

variable {p q : Term → Prop} {t u : Term}

theorem here (h : t.Everywhere p) : p t := by
  cases h with
  | intro ht _ => exact ht

theorem of_mem (h : t.Everywhere p) (hu : u ∈ t.under) : u.Everywhere p := by
  cases h with
  | intro _ hunder => exact hunder u hu

theorem mono (hpq : ∀ t, p t → q t) (h : t.Everywhere p) : t.Everywhere q := by
  induction h with
  | intro ht _ ih => exact .intro (hpq _ ht) ih

theorem of_occurs (h : t.Everywhere p) (hu : u.Occurs t) : u.Everywhere p := by
  induction hu with
  | self => exact h
  | deeper hv _ ih => exact ih (h.of_mem hv)

/-- A term with nothing below it. -/
theorem leaf (ht : p t) (hunder : t.under = []) : t.Everywhere p := by
  refine .intro ht fun u hu => ?_
  rw [hunder] at hu
  cases hu

/-- A term with two terms below it. -/
theorem pair {l r : Term} (ht : p t) (hunder : t.under = [l, r]) (hl : l.Everywhere p)
    (hr : r.Everywhere p) : t.Everywhere p := by
  refine .intro ht fun u hu => ?_
  rw [hunder, List.mem_cons, List.mem_singleton] at hu
  rcases hu with rfl | rfl
  · exact hl
  · exact hr

end Everywhere

theorem sizeOf_lt_of_mem_under {t u : Term} (h : u ∈ t.under) : sizeOf u < sizeOf t := by
  cases t with
  | assign target value =>
    simp only [under, List.mem_cons, List.not_mem_nil, or_false] at h
    rcases h with rfl | rfl <;> simp only [assign.sizeOf_spec] <;> omega
  | binary op left right =>
    simp only [under, List.mem_cons, List.not_mem_nil, or_false] at h
    rcases h with rfl | rfl <;> simp only [binary.sizeOf_spec] <;> omega
  | conditional condition consequent alternative =>
    simp only [under, List.mem_cons, List.mem_ite_nil_right, List.not_mem_nil, or_false] at h
    rcases h with rfl | rfl | ⟨-, rfl⟩ <;> simp only [conditional.sizeOf_spec] <;> omega
  | lambda parameters body =>
    obtain rfl := List.mem_singleton.1 h
    simp only [lambda.sizeOf_spec]
    omega
  | call callee arguments =>
    simp only [call.sizeOf_spec]
    rcases List.mem_cons.1 h with rfl | hu
    · omega
    · have := List.sizeOf_lt_of_mem hu
      omega
  | block body =>
    have hbody : u ∈ body := h
    have := List.sizeOf_lt_of_mem hbody
    simp only [block.sizeOf_spec]
    omega
  | _ => cases h

/-- A property of all terms that occur in a term. -/
theorem everywhere_of_occurs {p : Term → Prop} (t : Term) (h : ∀ u, u.Occurs t → p u) :
    t.Everywhere p :=
  .intro (h t .self) fun u hu =>
    have := sizeOf_lt_of_mem_under hu
    everywhere_of_occurs u fun v hv => h v (.deeper hu hv)
  termination_by sizeOf t

/-! ### Nodes and tokens -/

/-- A node comes from the given tokens. -/
def BuiltFrom (ts : List Token) : Term → Prop
  | number x => .number x ∈ ts
  | text s => .text s ∈ ts
  | var name => .name name ∈ ts
  | binary op _ _ => op ∈ Operator.known
  | lambda parameters _ => ∀ p ∈ parameters, .name p ∈ ts
  | block body => 2 ≤ body.length
  | missing => False
  | _ => True

end Term

namespace Grammar

/-! ### Readers -/

/-- From the given tokens the reader builds results of the given sort, and leaves some of
these tokens. -/
def Builds {α : Type} (all : List Token) (P : α → Prop) (reader : Reader α) : Prop :=
  ∀ ⦃ts rest : List Token⦄ ⦃a : α⦄, ts ⊆ all → reader ts = .ok (a, rest) → P a ∧ rest ⊆ all

variable {all : List Token}

theorem subset_of_expectMark {m : Punctuation} {ts rest : List Token} (hts : ts ⊆ all)
    (h : expectMark m ts = .ok rest) : rest ⊆ all := by
  rw [eq_of_expectMark h] at hts
  exact (List.cons_subset.1 hts).2

theorem subset_of_expectBranch {ts rest : List Token} (hts : ts ⊆ all)
    (h : expectBranch ts = .ok rest) : rest ⊆ all := by
  unfold expectBranch at h
  split at h
  · obtain rfl := Except.ok.inj h
    exact hts
  · rw [eq_of_expectKeyword h] at hts
    exact (List.cons_subset.1 hts).2

theorem builds_parameter : Builds all (fun n => .name n ∈ all) parameter := by
  intro ts rest n hts h
  unfold parameter at h
  split at h
  · obtain ⟨rfl, rfl⟩ := Prod.mk.inj (Except.ok.inj h)
    exact ⟨(List.cons_subset.1 hts).1, (List.cons_subset.1 hts).2⟩
  · cases h

theorem builds_moreItems {α : Type} {P : α → Prop} {item : Reader α} (hitem : Builds all P item)
    (close separator : Punctuation) (budget : List Token) :
    Builds all (fun xs => ∀ x ∈ xs, P x) (moreItems close separator item budget) := by
  induction budget with
  | nil =>
    intro ts rest xs hts h
    unfold moreItems at h
    split at h
    · obtain ⟨rfl, rfl⟩ := Prod.mk.inj (Except.ok.inj h)
      exact ⟨by simp, List.Subset.trans (List.tail_sublist ts).subset hts⟩
    · cases h
  | cons b budget ih =>
    intro ts rest xs hts h
    unfold moreItems at h
    split at h
    · obtain ⟨rfl, rfl⟩ := Prod.mk.inj (Except.ok.inj h)
      exact ⟨by simp, List.Subset.trans (List.tail_sublist ts).subset hts⟩
    · obtain ⟨ts₁, hmark, h₁⟩ := exists_of_bind_eq_ok h
      obtain ⟨⟨x, ts₂⟩, hx, h₂⟩ := exists_of_bind_eq_ok h₁
      obtain ⟨⟨xs', ts₃⟩, hxs, h₃⟩ := exists_of_bind_eq_ok h₂
      obtain ⟨rfl, rfl⟩ := Prod.mk.inj (Except.ok.inj h₃)
      obtain ⟨hPx, hts₂⟩ := hitem (subset_of_expectMark hts hmark) hx
      obtain ⟨hPxs, hts₃⟩ := ih hts₂ hxs
      exact ⟨List.forall_mem_cons.2 ⟨hPx, hPxs⟩, hts₃⟩

theorem builds_delimited {α : Type} {P : α → Prop} {item : Reader α} (hitem : Builds all P item)
    (start close separator : Punctuation) :
    Builds all (fun xs => ∀ x ∈ xs, P x) (delimited start close separator item) := by
  intro ts rest xs hts h
  obtain ⟨ts₁, hmark, h₁⟩ := exists_of_bind_eq_ok h
  have hts₁ := subset_of_expectMark hts hmark
  split at h₁
  · obtain ⟨rfl, rfl⟩ := Prod.mk.inj (Except.ok.inj h₁)
    exact ⟨by simp, List.Subset.trans (List.tail_sublist ts₁).subset hts₁⟩
  · obtain ⟨⟨x, ts₂⟩, hx, h₂⟩ := exists_of_bind_eq_ok h₁
    obtain ⟨⟨xs', ts₃⟩, hxs, h₃⟩ := exists_of_bind_eq_ok h₂
    obtain ⟨rfl, rfl⟩ := Prod.mk.inj (Except.ok.inj h₃)
    obtain ⟨hPx, hts₂⟩ := hitem hts₁ hx
    obtain ⟨hPxs, hts₃⟩ := builds_moreItems hitem close separator ts₂ hts₂ hxs
    exact ⟨List.forall_mem_cons.2 ⟨hPx, hPxs⟩, hts₃⟩

/-- A row of expressions between braces, as a term. -/
theorem everywhere_blockOf {es : List Term} (h : ∀ e ∈ es, e.Everywhere (Term.BuiltFrom all)) :
    (blockOf es).Everywhere (Term.BuiltFrom all) := by
  match es, h with
  | [], _ => exact .leaf trivial rfl
  | [e], h => exact h e (List.mem_singleton_self e)
  | e :: e' :: es, h => exact .intro (Nat.le_add_left 2 es.length) h

theorem everywhere_join {op : Infix} {symbol : String} (hop : Infix.ofSymbol? symbol = some op)
    {left right : Term} (hleft : left.Everywhere (Term.BuiltFrom all))
    (hright : right.Everywhere (Term.BuiltFrom all)) :
    (join op left right).Everywhere (Term.BuiltFrom all) := by
  cases op with
  | assign => exact .pair trivial rfl hleft hright
  | operator op =>
    refine .pair ?_ rfl hleft hright
    unfold Infix.ofSymbol? at hop
    split at hop
    · cases hop
    · obtain ⟨op', hop', heq⟩ := Option.map_eq_some_iff.1 hop
      obtain rfl := Infix.operator.inj heq
      exact Operator.mem_known_of_ofSymbol? hop'

section Levels

variable {inner : Reader Term}
  (hinner : Builds all (Term.Everywhere (Term.BuiltFrom all)) inner)

include hinner

theorem builds_calls (budget : List Token) {callee : Term}
    (hcallee : callee.Everywhere (Term.BuiltFrom all)) :
    Builds all (Term.Everywhere (Term.BuiltFrom all)) (calls inner budget callee) := by
  induction budget generalizing callee with
  | nil =>
    intro ts rest e hts h
    rw [calls_nil] at h
    obtain ⟨rfl, rfl⟩ := Prod.mk.inj (Except.ok.inj h)
    exact ⟨hcallee, hts⟩
  | cons b budget ih =>
    intro ts rest e hts h
    unfold calls at h
    split at h
    · obtain ⟨⟨args, ts₁⟩, hargs, h₁⟩ := exists_of_bind_eq_ok h
      obtain ⟨hall, hts₁⟩ := builds_delimited hinner _ _ _ hts hargs
      -- what is below the call is what was read before it, and its arguments
      have hcall : (Term.call callee args).Everywhere (Term.BuiltFrom all) :=
        .intro trivial (List.forall_mem_cons.2 ⟨hcallee, hall⟩)
      exact ih hcall hts₁ h₁
    · obtain ⟨rfl, rfl⟩ := Prod.mk.inj (Except.ok.inj h)
      exact ⟨hcallee, hts⟩

theorem builds_conditional :
    Builds all (Term.Everywhere (Term.BuiltFrom all)) (conditional inner) := by
  intro ts rest e hts h
  obtain ⟨⟨c, ts₁⟩, hc, h₁⟩ := exists_of_bind_eq_ok h
  obtain ⟨ts₂, hthen, h₂⟩ := exists_of_bind_eq_ok h₁
  obtain ⟨⟨t, ts₃⟩, ht, h₃⟩ := exists_of_bind_eq_ok h₂
  obtain ⟨hcond, hts₁⟩ := hinner hts hc
  obtain ⟨hcons, hts₃⟩ := hinner (subset_of_expectBranch hts₁ hthen) ht
  simp only at h₃
  split at h₃
  · next ts₄ =>
    obtain ⟨⟨a, ts₅⟩, ha, h₄⟩ := exists_of_bind_eq_ok h₃
    obtain ⟨rfl, rfl⟩ := Prod.mk.inj (Except.ok.inj h₄)
    obtain ⟨halt, hts₅⟩ := hinner (List.cons_subset.1 hts₃).2 ha
    refine ⟨.intro trivial fun u hu => ?_, hts₅⟩
    rw [Term.under, List.mem_cons, List.mem_cons] at hu
    rcases hu with rfl | rfl | hu
    · exact hcond
    · exact hcons
    · rw [List.mem_ite_nil_right, List.mem_singleton] at hu
      rw [hu.2]
      exact halt
  · -- a branch that is missing is not below the term
    obtain ⟨rfl, rfl⟩ := Prod.mk.inj (Except.ok.inj h₃)
    exact ⟨.pair trivial rfl hcond hcons, hts₃⟩

theorem builds_function :
    Builds all (Term.Everywhere (Term.BuiltFrom all)) (function inner) := by
  intro ts rest e hts h
  obtain ⟨⟨ps, ts₁⟩, hps, h₁⟩ := exists_of_bind_eq_ok h
  obtain ⟨⟨b, ts₂⟩, hb, h₂⟩ := exists_of_bind_eq_ok h₁
  obtain ⟨rfl, rfl⟩ := Prod.mk.inj (Except.ok.inj h₂)
  obtain ⟨hnames, hts₁⟩ := builds_delimited builds_parameter _ _ _ hts hps
  obtain ⟨hbody, hts₂⟩ := hinner hts₁ hb
  exact ⟨.intro hnames (List.forall_mem_singleton.2 hbody), hts₂⟩

end Levels

section Nesting

variable {inner : Nested}
  (hinner : ∀ k, Builds all (Term.Everywhere (Term.BuiltFrom all)) (inner k))

include hinner

theorem builds_primary : Builds all (Term.Everywhere (Term.BuiltFrom all)) (primary inner) := by
  intro ts rest e hts h
  unfold primary at h
  split at h
  · obtain ⟨⟨e', ts₁⟩, he, h₁⟩ := exists_of_bind_eq_ok h
    obtain ⟨ts₂, hclose, h₂⟩ := exists_of_bind_eq_ok h₁
    obtain ⟨rfl, rfl⟩ := Prod.mk.inj (Except.ok.inj h₂)
    obtain ⟨hterm, hts₁⟩ := hinner 0 (List.cons_subset.1 hts).2 he
    exact ⟨hterm, subset_of_expectMark hts₁ hclose⟩
  · obtain ⟨⟨es, ts₁⟩, hes, h₁⟩ := exists_of_bind_eq_ok h
    obtain ⟨rfl, rfl⟩ := Prod.mk.inj (Except.ok.inj h₁)
    obtain ⟨hall, hts₁⟩ := builds_delimited (hinner 2) _ _ _ hts hes
    exact ⟨everywhere_blockOf hall, hts₁⟩
  · exact builds_conditional (hinner 1) (List.cons_subset.1 hts).2 h
  · obtain ⟨rfl, rfl⟩ := Prod.mk.inj (Except.ok.inj h)
    exact ⟨.leaf trivial rfl, (List.cons_subset.1 hts).2⟩
  · obtain ⟨rfl, rfl⟩ := Prod.mk.inj (Except.ok.inj h)
    exact ⟨.leaf trivial rfl, (List.cons_subset.1 hts).2⟩
  · exact builds_function (hinner 1) (List.cons_subset.1 hts).2 h
  · exact builds_function (hinner 1) (List.cons_subset.1 hts).2 h
  · -- a leaf is built from the token that was just consumed
    obtain ⟨rfl, rfl⟩ := Prod.mk.inj (Except.ok.inj h)
    exact ⟨.leaf (List.cons_subset.1 hts).1 rfl, (List.cons_subset.1 hts).2⟩
  · obtain ⟨rfl, rfl⟩ := Prod.mk.inj (Except.ok.inj h)
    exact ⟨.leaf (List.cons_subset.1 hts).1 rfl, (List.cons_subset.1 hts).2⟩
  · obtain ⟨rfl, rfl⟩ := Prod.mk.inj (Except.ok.inj h)
    exact ⟨.leaf (List.cons_subset.1 hts).1 rfl, (List.cons_subset.1 hts).2⟩
  · cases h

theorem builds_atom : Builds all (Term.Everywhere (Term.BuiltFrom all)) (atom inner) := by
  intro ts rest e hts h
  obtain ⟨⟨e', ts₁⟩, he, h₁⟩ := exists_of_bind_eq_ok h
  obtain ⟨hterm, hts₁⟩ := builds_primary (fun k => hinner (k + 2)) hts he
  exact builds_calls (hinner 3) ts₁ hterm hts₁ h₁

theorem builds_climb (budget : List Token) (threshold : Nat) {left : Term}
    (hleft : left.Everywhere (Term.BuiltFrom all)) :
    Builds all (Term.Everywhere (Term.BuiltFrom all)) (climb inner budget threshold left) := by
  induction budget generalizing inner threshold left with
  | nil =>
    intro ts rest e hts h
    rw [climb_nil] at h
    obtain ⟨rfl, rfl⟩ := Prod.mk.inj (Except.ok.inj h)
    exact ⟨hleft, hts⟩
  | cons b budget ih =>
    intro ts rest e hts h
    unfold climb at h
    split at h
    · obtain ⟨rfl, rfl⟩ := Prod.mk.inj (Except.ok.inj h)
      exact ⟨hleft, hts⟩
    · next op rest' hnext =>
      obtain ⟨symbol, rfl, hop, -⟩ := eq_of_nextInfix? hnext
      obtain ⟨⟨right, ts₁⟩, hright, h₁⟩ := exists_of_bind_eq_ok h
      obtain ⟨⟨right', ts₂⟩, hright', h₂⟩ := exists_of_bind_eq_ok h₁
      have hoperand (k : Nat) := hinner (k + 1)
      obtain ⟨hterm, hts₁⟩ := builds_atom hoperand (List.cons_subset.1 hts).2 hright
      obtain ⟨hterm', hts₂⟩ := ih hoperand op.precedence hterm hts₁ hright'
      -- the joined term is the left operand of what follows
      exact ih hinner threshold (everywhere_join hop hleft hterm') hts₂ h₂

theorem builds_expressionWith :
    Builds all (Term.Everywhere (Term.BuiltFrom all)) (expressionWith inner) := by
  intro ts rest e hts h
  obtain ⟨⟨e', ts₁⟩, he, h₁⟩ := exists_of_bind_eq_ok h
  obtain ⟨⟨left, ts₂⟩, hleft, h₂⟩ := exists_of_bind_eq_ok he
  have hoperand (k : Nat) := hinner (k + 3)
  obtain ⟨hterm, hts₂⟩ := builds_atom hoperand hts hleft
  obtain ⟨hterm', hts₁⟩ := builds_climb hoperand ts₂ 0 hterm hts₂ h₂
  exact builds_calls (hinner 3) ts₁ hterm' hts₁ h₁

end Nesting

/-- **The reader of expressions builds terms of its tokens.**  Each name, number and text in the
term is one of them, each operator is one that has a meaning, and each block has two expressions
at least. -/
theorem builds_expression (frames : Nat) :
    Builds all (Term.Everywhere (Term.BuiltFrom all)) (expression frames) :=
  nested_induction (fun _ _ _ _ h => nomatch h) (fun _ => builds_expressionWith) frames 0

theorem everywhere_of_programWithin {frames : Nat} {budget ts : List Token} {es : List Term}
    (hts : ts ⊆ all) (h : programWithin frames budget ts = .ok es) :
    ∀ e ∈ es, e.Everywhere (Term.BuiltFrom all) := by
  induction budget generalizing ts es with
  | nil =>
    have hnil : es = [] := by
      cases ts with
      | nil => exact (Except.ok.inj h).symm
      | cons t ts => exact (Except.ok.inj h).symm
    simp [hnil]
  | cons b budget ih =>
    cases ts with
    | nil =>
      obtain rfl := Except.ok.inj h
      simp
    | cons t ts =>
      obtain ⟨⟨e, ts₁⟩, he, h₁⟩ := exists_of_bind_eq_ok h
      obtain ⟨hterm, hts₁⟩ := builds_expression frames hts he
      simp only at h₁
      split at h₁
      · obtain rfl := Except.ok.inj h₁
        exact List.forall_mem_singleton.2 hterm
      · obtain ⟨ts₂, hmark, h₂⟩ := exists_of_bind_eq_ok h₁
        obtain ⟨es', hes', h₃⟩ := exists_of_bind_eq_ok h₂
        obtain rfl := Except.ok.inj h₃
        exact List.forall_mem_cons.2 ⟨hterm, ih (subset_of_expectMark hts₁ hmark) hes'⟩

end Grammar

/-- **Every node of a program comes from the tokens of its text**, and all of the text was
read. -/
theorem ParsesTo.builtFrom {source : String} {program : List Term}
    (h : ParsesTo source (.ok program)) :
    (lex source).trouble = none ∧
    ∀ e ∈ program, e.Everywhere (Term.BuiltFrom ((lex source).tokens.map (·.token))) := by
  obtain ⟨limit, hlimit⟩ := h.eventually
  have hparse := hlimit limit (Nat.le_refl limit)
  obtain ⟨htrouble, hprogram⟩ := Lexed.parse_eq_ok_iff.1 hparse
  exact ⟨htrouble, Grammar.everywhere_of_programWithin (List.Subset.refl _) hprogram⟩

end Lamlet
