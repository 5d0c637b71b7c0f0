import Lamlet.Proofs.Grammar.Shape
import Lamlet.Proofs.Term.Spelling
import Lamlet.Proofs.Token.Splitting

/-!
# Programs that are read can be written

The grammar takes names and numbers from tokens, and tokens come from lexemes.  So every
node below the root of a program that was read has the form that a text needs: names are
not those of keywords, numbers are not below zero, operators have a place among the
precedences, and blocks hold several expressions.  Only a literal with too many digits,
which denotes infinity, keeps such a program from being written as text again.

## Main definitions

* `Term.Legible` — a single node has the form that a text needs.

## Main results

* `Infix.ofSymbol?_eq_operator_iff` — the symbols of operators that have a meaning.
* `isName_of_lexeme`, `zero_le_of_lexeme` — what the lexemes of names and numbers give.
* `Term.WellFormed.of_legible` — a term of legible nodes and finite numbers is well-formed.
* `legible_of_parse` — **every node below the root of a program that was read is legible.**
-/

namespace Lamlet

/-! ### Operators -/

/-- An operator stands under its symbol among the precedences exactly if it has a meaning. -/
theorem Infix.ofSymbol?_eq_operator_iff (op : Operator) :
    Infix.ofSymbol? op.symbol = some (.operator op) ↔ op ∈ Operator.known := by
  constructor
  · intro h
    unfold Infix.ofSymbol? at h
    split at h
    · cases h
    · obtain ⟨op', hop', heq⟩ := Option.map_eq_some_iff.1 h
      obtain rfl := Infix.operator.inj heq
      exact Operator.mem_known_of_ofSymbol? hop'
  · intro h
    -- the sign of assignment is none of the operators
    have hne : op.symbol ≠ "=" := by
      revert h
      cases op <;> simp [Operator.known, Operator.symbol]
    rw [Infix.ofSymbol?, if_neg hne, Operator.ofSymbol?_symbol h]
    rfl

/-! ### Names and numbers -/

/-- The lexeme of a name is no keyword and has the characters of a name. -/
theorem isName_of_lexeme {name : String} {lexeme : List Char} (h : Lexeme (.name name) lexeme) :
    isName name = true := by
  cases h with
  | @name c cs hstart hchars hword =>
    have hkeyword : Keyword.ofName? (String.ofList (c :: cs)) = none := by
      refine List.find?_eq_none.2 fun k _ => ?_
      simpa using hword k
    rw [isName, String.toList_ofList]
    simp only [hstart, List.all_eq_true.2 hchars, hkeyword, Option.isNone_none, Bool.and_self]

/-- The value of a number literal is not below zero, and it is a number. -/
theorem zero_le_of_lexeme {x : Number} {lexeme : List Char} (h : Lexeme (.number x) lexeme) :
    Number.le .zero x = true := by
  cases h with
  | @number n _ =>
    have hzero : Number.rank? .zero = some 0 := rfl
    unfold Numeral.value Decimal.toNumber Number.le
    rw [hzero]
    cases n.decimal.nearest? with
    | some size => exact decide_eq_true (Int.natCast_nonneg size.units)
    | none => exact decide_eq_true (Int.natCast_nonneg overflowUnits)

namespace Term

/-! ### Legible nodes -/

/-- A node has the form that a text needs.  Numbers are at least zero, which `nan` is not;
they may be infinite.  An operator is one that stands among the precedences under its
symbol; the sign of assignment stands there for itself. -/
def Legible : Term → Prop
  | number x => Number.le .zero x = true
  | var name => isName name = true
  | binary op _ _ => Infix.ofSymbol? op.symbol = some (.operator op)
  | lambda parameters _ => ∀ p ∈ parameters, isName p = true
  | block body => 2 ≤ body.length
  | missing => False
  | _ => True

/-- **A term of legible nodes and finite numbers is well-formed.** -/
theorem WellFormed.of_legible {t : Term} (h : t.Everywhere Legible)
    (hfinite : ∀ x, (Term.number x).Occurs t → x.isFinite = true) : t.WellFormed := by
  induction h with
  | @intro t ht _ ih =>
    have hunder : ∀ u ∈ t.under, u.WellFormed :=
      fun u hu => ih u hu fun x hx => hfinite x (.deeper hu hx)
    cases t with
    | number x => exact .number (hfinite x .self) ht
    | text s => exact .text s
    | boolean b => exact .boolean b
    | var name => exact .var ht
    | assign target value =>
      exact .assign (hunder target (by simp [under])) (hunder value (by simp [under]))
    | binary op left right =>
      have hop := Operator.ofSymbol?_symbol ((Infix.ofSymbol?_eq_operator_iff op).1 ht)
      exact .binary (by rw [hop]; rfl) (hunder left (by simp [under]))
        (hunder right (by simp [under]))
    | conditional condition consequent alternative =>
      have hcondition := hunder condition (by simp [under])
      have hconsequent := hunder consequent (by simp [under])
      -- a second branch that is left out is no node of its own
      cases hpresent : alternative.isPresent with
      | true =>
        exact .twoBranches hcondition hconsequent (hunder alternative (by simp [under, hpresent]))
      | false =>
        cases alternative with
        | missing => exact .oneBranch hcondition hconsequent
        | _ => cases hpresent
    | lambda parameters body => exact .lambda ht (hunder body (by simp [under]))
    | call callee arguments =>
      refine .call (hunder callee (by simp [under])) fun a ha => ?_
      exact hunder a (List.mem_cons_of_mem _ ha)
    | block body => exact .block ht hunder
    | missing => exact ht.elim

/-- A node that comes from the tokens of a text is legible. -/
theorem BuiltFrom.legible {source : String} {t : Term}
    (h : t.BuiltFrom ((lex source).tokens.map (·.token))) : t.Legible := by
  -- every token of a text was written as a lexeme
  have hlexeme : ∀ token ∈ (lex source).tokens.map (·.token), ∃ lexeme, Lexeme token lexeme := by
    intro token htoken
    obtain ⟨located, hlocated, rfl⟩ := List.mem_map.1 htoken
    exact exists_lexeme_of_mem_lex hlocated
  cases t with
  | number x =>
    obtain ⟨lexeme, hx⟩ := hlexeme _ h
    exact zero_le_of_lexeme hx
  | var name =>
    obtain ⟨lexeme, hname⟩ := hlexeme _ h
    exact isName_of_lexeme hname
  | binary op left right => exact (Infix.ofSymbol?_eq_operator_iff op).2 h
  | lambda parameters body =>
    intro p hp
    obtain ⟨lexeme, hname⟩ := hlexeme _ (h p hp)
    exact isName_of_lexeme hname
  | block body => exact h
  | missing => exact h
  | _ => trivial

end Term

/-! ### Programs that were read -/

/-- **Every node below the root of a program that was read is legible.**  A part of it in
which all numbers are finite is well-formed, so that it has a text. -/
theorem legible_of_parse {frames : Nat} {source : String} {program : List Term}
    (h : parse frames source = .ok program) :
    ∀ e ∈ program, ∀ t : Term, t.Occurs e →
      t.Legible ∧ ((∀ x, (Term.number x).Occurs t → x.isFinite = true) → t.WellFormed) := by
  intro e he t ht
  have hbuilt := (ParsesTo.of_parse h).builtFrom.2 e he
  have hlegible : t.Everywhere Term.Legible :=
    (hbuilt.of_occurs ht).mono fun u hu => hu.legible
  exact ⟨hlegible.here, Term.WellFormed.of_legible hlegible⟩

/-- A function with a block for its body, in which an empty block and a block of one
expression are left. -/
def legibleSample : List Term :=
  [.assign (.var "f") (.lambda ["x", "y?"]
    (.block [.boolean false,
      .conditional (.binary .le (.var "x") (.number .one)) (.var "y?") .missing]))]

theorem legible_of_parse_legibleSample :
    parse 100 "f = λ (x, y?) \x7b \x7b\x7d; if \x7bx <= 1.0\x7d then y? \x7d;" = .ok legibleSample ∧
    ∀ e ∈ legibleSample, ∀ t : Term, t.Occurs e →
      t.Legible ∧ ((∀ x, (Term.number x).Occurs t → x.isFinite = true) → t.WellFormed) := by
  have htokens : (lex "f = λ (x, y?) \x7b \x7b\x7d; if \x7bx <= 1.0\x7d then y? \x7d;").tokens.map
      (·.token)
      = [.name "f", .operator "=", .keyword .lambdaLetter, .mark .leftParen, .name "x",
        .mark .comma, .name "y?", .mark .rightParen, .mark .leftBrace, .mark .leftBrace,
        .mark .rightBrace, .mark .semicolon, .keyword .ifWord, .mark .leftBrace, .name "x",
        .operator "<=", .number .one, .mark .rightBrace, .keyword .thenWord, .name "y?",
        .mark .rightBrace, .mark .semicolon] := by
    decide +kernel
  have htrouble : (lex "f = λ (x, y?) \x7b \x7b\x7d; if \x7bx <= 1.0\x7d then y? \x7d;").trouble
      = none := by
    decide +kernel
  have hparse : parse 100 "f = λ (x, y?) \x7b \x7b\x7d; if \x7bx <= 1.0\x7d then y? \x7d;"
      = .ok legibleSample := by
    rw [parse, Lexed.parse, htokens, Lexed.fault?, htrouble]
    rfl
  exact ⟨hparse, legible_of_parse hparse⟩

end Lamlet
