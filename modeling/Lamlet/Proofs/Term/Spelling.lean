import Lamlet.Proofs.Token.Lexing
import Lamlet.Proofs.Grammar.Reading
import Lamlet.Term.Render

/-!
# The tokens of a written term

A text spells a word of tokens if it reads as these tokens before anything that cannot
go on with its last lexeme.  Spellings are put together with blanks and punctuation
marks between them, and so the text of a well-formed term spells the tokens of the term.

## Main definitions

* `Delimits` — what may stand after a lexeme.
* `Spells` — a text reads as a word of tokens.
* `Term.WellFormed` — the terms that have a text.
* `Term.tokens` — the tokens of a term.

## Main results

* `Spells.blank`, `Spells.mark` — putting spellings together.
* `Term.WellFormed.spells` — **the text of a well-formed term spells its tokens.**
-/

namespace Lamlet

open Text Grammar

/-! ### Spellings -/

/-- No name, keyword or number goes on into the text. -/
structure Delimits (rest : List Char) : Prop where
  /-- No name or keyword does. -/
  name : Halts isNameChar rest
  /-- No number does. -/
  numeral : Halts isNumeralChar rest

theorem delimits_nil : Delimits [] := ⟨halts_nil _, halts_nil _⟩

theorem delimits_blank (rest : List Char) : Delimits (' ' :: rest) :=
  ⟨halts_cons _ (by decide), halts_cons _ (by decide)⟩

theorem delimits_mark (m : Punctuation) (rest : List Char) : Delimits (m.toChar :: rest) :=
  ⟨halts_cons _ (by cases m <;> decide), halts_cons _ (by cases m <;> decide)⟩

/-- A text reads as a word of tokens, before anything that delimits it. -/
def Spells (s : String) (w : List Token) : Prop :=
  ∀ rest ts, Delimits rest → Lexes rest ts → Lexes (s.toList ++ rest) (w ++ ts)

theorem spells_empty : Spells "" [] := fun _ _ _ h => h

theorem spells_keyword (k : Keyword) : Spells k.word [.keyword k] := by
  intro rest ts hrest h
  exact .token (scan_keyword k hrest.name) h

theorem spells_literal (s : String) : Spells (literal s) [.text s] := by
  intro rest ts _ h
  exact .token (scan_literal s rest) h

namespace Spells

variable {s s' : String} {w w' : List Token}

/-- Two spellings with a blank between them. -/
theorem blank (h : Spells s w) (h' : Spells s' w') : Spells (s ++ " " ++ s') (w ++ w') := by
  intro rest ts hrest hts
  have hsecond : Lexes (' ' :: (s'.toList ++ rest)) (w' ++ ts) :=
    .gap (by decide) (h' rest ts hrest hts)
  have hboth := h _ _ (delimits_blank _) hsecond
  simpa using hboth

/-- Two spellings with a punctuation mark between them. -/
theorem mark (m : Punctuation) (h : Spells s w) (h' : Spells s' w') :
    Spells (s ++ m.text ++ s') (w ++ .mark m :: w') := by
  intro rest ts hrest hts
  have hsecond : Lexes (m.toChar :: (s'.toList ++ rest)) (.mark m :: (w' ++ ts)) :=
    .token (scan_mark m _) (h' rest ts hrest hts)
  have hboth := h _ _ (delimits_mark m _) hsecond
  simpa [Punctuation.text] using hboth

/-- The same with a blank after the mark. -/
theorem separated (m : Punctuation) {separator : String} (hsep : separator = m.text ++ " ")
    (h : Spells s w) (h' : Spells s' w') :
    Spells (s ++ separator ++ s') (w ++ .mark m :: w') := by
  have hskip : Spells (" " ++ s') w' := spells_empty.blank h'
  have hall := h.mark m hskip
  rw [hsep]
  simpa [String.append_assoc] using hall

/-- A keyword and a blank before a spelling. -/
theorem opened (k : Keyword) {word : String} (hword : word = k.word ++ " ") (h : Spells s w) :
    Spells (word ++ s) (.keyword k :: w) := by
  rw [hword]
  exact (spells_keyword k).blank h

/-- Two spellings with a keyword between blanks. -/
theorem keyword (k : Keyword) {word : String} (hword : word = " " ++ k.word ++ " ")
    (h : Spells s w) (h' : Spells s' w') :
    Spells (s ++ word ++ s') (w ++ .keyword k :: w') := by
  have hall := h.blank ((spells_keyword k).blank h')
  rw [hword]
  simpa [String.append_assoc] using hall

/-- A spelling between two punctuation marks. -/
theorem between (m m' : Punctuation) (h : Spells s w) :
    Spells (m.text ++ s ++ m'.text) (.mark m :: (w ++ [.mark m'])) := by
  have hmarks := (spells_empty.mark m h).mark m' spells_empty
  simpa using hmarks

end Spells

/-- An operator between blanks. -/
theorem Spells.operator {s s' symbol : String} {w w' : List Token} (hne : symbol ≠ "")
    (hsymbol : ∀ c ∈ symbol.toList, isOperatorChar c = true) (h : Spells s w)
    (h' : Spells s' w') :
    Spells (s ++ " " ++ symbol ++ " " ++ s') (w ++ .operator symbol :: w') := by
  intro rest ts hrest hts
  -- the operator is delimited by the blank, not by what delimits names and numbers
  have hafter : Lexes (' ' :: (s'.toList ++ rest)) (w' ++ ts) :=
    .gap (by decide) (h' rest ts hrest hts)
  have hoperator : Lexes (symbol.toList ++ ' ' :: (s'.toList ++ rest))
      (.operator symbol :: (w' ++ ts)) :=
    .token (scan_operator hne hsymbol (halts_cons _ (by decide))) hafter
  have hall := h _ _ (delimits_blank _) (hoperator.gap (by decide))
  simpa using hall

/-- Spellings in a row, with a mark and a blank between each two. -/
theorem spells_joinWith (m : Punctuation) {separator : String} (hsep : separator = m.text ++ " ")
    {ss : List String} {ws : List (List Token)} (h : List.Forall₂ Spells ss ws) :
    Spells (joinWith separator ss) (joinTokens m ws) := by
  subst hsep
  induction h with
  | nil => exact spells_empty
  | @cons s w ss ws hs hss ih =>
    cases hss with
    | nil => exact hs
    | cons hs' hss' =>
      exact hs.separated m rfl ih

/-! ### Well-formed terms -/

/-- Whether a text can be read as a name. -/
def isName (name : String) : Bool :=
  match name.toList with
  | [] => false
  | c :: cs => isNameStart c && cs.all isNameChar && (Keyword.ofName? name).isNone

namespace Term

/-- The terms that have a text: names can be read as such, numbers have a literal,
operators have a meaning, and blocks have at least two expressions.  An expression is
missing only as the second branch of a conditional. -/
inductive WellFormed : Term → Prop where
  | number {x : Number} :
      x.isFinite = true → Number.le (.finite false .zero) x = true → WellFormed (.number x)
  | text (s : String) : WellFormed (.text s)
  | boolean (b : Bool) : WellFormed (.boolean b)
  | var {name : String} : isName name = true → WellFormed (.var name)
  | assign {target value : Term} :
      WellFormed target → WellFormed value → WellFormed (.assign target value)
  | binary {op : Operator} {left right : Term} :
      (Operator.ofSymbol? op.symbol).isSome = true → WellFormed left → WellFormed right →
      WellFormed (.binary op left right)
  | oneBranch {condition consequent : Term} :
      WellFormed condition → WellFormed consequent →
      WellFormed (.conditional condition consequent .missing)
  | twoBranches {condition consequent alternative : Term} :
      WellFormed condition → WellFormed consequent → WellFormed alternative →
      WellFormed (.conditional condition consequent alternative)
  | lambda {parameters : List String} {body : Term} :
      (∀ p ∈ parameters, isName p = true) → WellFormed body →
      WellFormed (.lambda parameters body)
  | call {callee : Term} {arguments : List Term} :
      WellFormed callee → (∀ a ∈ arguments, WellFormed a) → WellFormed (.call callee arguments)
  | block {body : List Term} :
      2 ≤ body.length → (∀ e ∈ body, WellFormed e) → WellFormed (.block body)

theorem WellFormed.isPresent {t : Term} (h : t.WellFormed) : t.isPresent = true := by
  cases h <;> rfl

/-! ### The tokens of a term -/

/-- The tokens of a term in brackets, if it needs them. -/
def groupTokens (t : Term) (w : List Token) : List Token :=
  if t.isAtom then w else .mark .leftParen :: (w ++ [.mark .rightParen])

mutual

/-- The tokens of the text of a term.  The text of a number does not show the sign of
zero, and the second branch of a conditional stands only if there is one. -/
def tokens : Term → List Token
  | number (.finite _ a) => [.number (.finite false a)]
  | number _ => []
  | text s => [.text s]
  | boolean b => [.keyword (if b then .trueWord else .falseWord)]
  | var name => [.name name]
  | assign target value =>
    groupTokens target (tokens target) ++ .operator "=" :: groupTokens value (tokens value)
  | binary op left right =>
    groupTokens left (tokens left) ++ .operator op.symbol :: groupTokens right (tokens right)
  | conditional condition consequent alternative =>
    .keyword .ifWord :: (groupTokens condition (tokens condition)
      ++ .keyword .thenWord :: (groupTokens consequent (tokens consequent)
      ++ if alternative.isPresent then
          .keyword .elseWord :: groupTokens alternative (tokens alternative)
        else []))
  | lambda parameters body =>
    .keyword .lambdaWord :: .mark .leftParen ::
      (joinTokens .comma (parameters.map fun n => [.name n])
      ++ .mark .rightParen :: groupTokens body (tokens body))
  | call callee arguments =>
    groupTokens callee (tokens callee)
      ++ .mark .leftParen :: (joinTokens .comma (tokensEach arguments) ++ [.mark .rightParen])
  | block body =>
    .mark .leftBrace :: (joinTokens .semicolon (tokensEach body) ++ [.mark .rightBrace])
  | missing => []

/-- The tokens of several terms. -/
def tokensEach : List Term → List (List Token)
  | [] => []
  | t :: ts => tokens t :: tokensEach ts

end

/-! ### The text of a term spells its tokens -/

/-- Only a zero may have a sign and not be below zero. -/
theorem units_eq_zero_of_le {a : Magnitude}
    (h : Number.le (.finite false .zero) (.finite true a) = true) : a.units = 0 := by
  simp [Number.le, Number.rank?, Number.signedUnits, Magnitude.zero] at h
  omega

theorem spells_number {x : Number} (hfinite : x.isFinite = true)
    (hle : Number.le (.finite false .zero) x = true) :
    ∃ s, renderNumber x = .ok s ∧ Spells s (number x).tokens := by
  cases x with
  | nan => cases hfinite
  | infinity sign => cases hfinite
  | finite sign a =>
    have hliteral : (Number.finite sign a).literal? = some (String.ofList a.plainText) := by
      cases sign with
      | false => rfl
      -- the sign of a zero is not written
      | true => simp [Number.literal?, units_eq_zero_of_le hle]
    refine ⟨String.ofList a.plainText, by rw [renderNumber, hliteral], ?_⟩
    intro rest ts hrest h
    have hscan := scan_numeral a.plain_numeral (hrest.numeral.goesOn _)
    rw [a.lexeme_numeral, a.value_numeral] at hscan
    rw [String.toList_ofList]
    exact .token hscan h

theorem spells_name {name : String} (h : isName name = true) : Spells name [.name name] := by
  intro rest ts hrest hts
  cases hname : name.toList with
  | nil => simp [isName, hname] at h
  | cons c cs =>
    simp only [isName, hname, Bool.and_eq_true, List.all_eq_true, Option.isNone_iff_eq_none] at h
    obtain ⟨⟨hstart, hchars⟩, hkeyword⟩ := h
    have hscan := scan_name hname hstart hchars hrest.name
    rw [nameToken, String.ofList_toList, hkeyword] at hscan
    rw [← hname]
    exact .token hscan hts

theorem spells_boolean (b : Bool) : Spells (booleanText b) (boolean b).tokens := by
  cases b with
  | false => exact spells_keyword .falseWord
  | true => exact spells_keyword .trueWord

theorem spells_group (t : Term) {s : String} {w : List Token} (h : Spells s w) :
    Spells (group t s) (groupTokens t w) := by
  unfold Term.group groupTokens
  split
  · exact h
  · exact h.between .leftParen .rightParen

/-- The symbol of an operator is a run of operator characters. -/
theorem symbol_chars {op : Operator} (h : (Operator.ofSymbol? op.symbol).isSome = true) :
    op.symbol ≠ "" ∧ ∀ c ∈ op.symbol.toList, isOperatorChar c = true := by
  obtain ⟨known, hknown⟩ := Option.isSome_iff_exists.1 h
  rw [← Operator.symbol_of_ofSymbol? hknown]
  have hmem := Operator.mem_known_of_ofSymbol? hknown
  revert hmem
  cases known <;> simp [Operator.known, Operator.symbol, isOperatorChar]

/-- The texts of several terms spell their tokens in a row. -/
theorem spells_renderEach {ts : List Term}
    (h : ∀ t ∈ ts, ∃ s, t.render = .ok s ∧ Spells s t.tokens) :
    ∃ ss, renderEach ts = .ok ss ∧ List.Forall₂ Spells ss (tokensEach ts) := by
  induction ts with
  | nil => exact ⟨[], by rw [renderEach], by rw [tokensEach]; exact .nil⟩
  | cons t ts ih =>
    obtain ⟨s, hs, hspells⟩ := h t (by simp)
    obtain ⟨ss, hss, hall⟩ := ih fun u hu => h u (by simp [hu])
    refine ⟨s :: ss, ?_, ?_⟩
    · rw [renderEach, hs, hss]
      rfl
    · rw [tokensEach]
      exact .cons hspells hall

theorem spells_parameters {ps : List String} (h : ∀ p ∈ ps, isName p = true) :
    List.Forall₂ Spells ps (ps.map fun n => [.name n]) := by
  induction ps with
  | nil => exact .nil
  | cons p ps ih => exact .cons (spells_name (h p (by simp))) (ih fun q hq => h q (by simp [hq]))

/-- **The text of a well-formed term spells its tokens.**  Such a term has a text, and before
anything that cannot be taken for a part of its last token, the text is read as just these
tokens; so the spellings of parts can be put together with blanks and marks between them. -/
theorem WellFormed.spells {t : Term} (h : t.WellFormed) :
    ∃ s, t.render = .ok s ∧ Spells s t.tokens := by
  induction h with
  | number hfinite hle =>
    rw [render]
    exact spells_number hfinite hle
  | text s => exact ⟨literal s, by rw [render], by rw [tokens]; exact spells_literal s⟩
  | boolean b => exact ⟨booleanText b, by rw [render], spells_boolean b⟩
  | @var name hname => exact ⟨name, by rw [render], by rw [tokens]; exact spells_name hname⟩
  | @assign target value _ _ iht ihv =>
    obtain ⟨t, ht, hspellst⟩ := iht
    obtain ⟨v, hv, hspellsv⟩ := ihv
    refine ⟨group target t ++ " = " ++ group value v, by rw [render, ht, hv]; rfl, ?_⟩
    have hall : Spells (group target t ++ " " ++ "=" ++ " " ++ group value v) _ :=
      .operator (by decide) (by simp [isOperatorChar]) (spells_group target hspellst)
        (spells_group value hspellsv)
    rw [tokens]
    simpa [String.append_assoc] using hall
  | @binary op left right hop _ _ ihl ihr =>
    obtain ⟨l, hl, hspellsl⟩ := ihl
    obtain ⟨r, hr, hspellsr⟩ := ihr
    obtain ⟨hne, hchars⟩ := symbol_chars hop
    refine ⟨group left l ++ " " ++ op.symbol ++ " " ++ group right r,
      by rw [render, hl, hr]; rfl, ?_⟩
    rw [tokens]
    exact Spells.operator hne hchars (spells_group left hspellsl) (spells_group right hspellsr)
  | @oneBranch condition consequent _ _ ihc iht =>
    obtain ⟨c, hc, hspellsc⟩ := ihc
    obtain ⟨t, ht, hspellst⟩ := iht
    refine ⟨"if " ++ group condition c ++ " then " ++ group consequent t, ?_, ?_⟩
    · rw [render, hc, ht, render]
      rfl
    · rw [tokens]
      have hall : Spells ("if " ++ group condition c ++ " then " ++ group consequent t) _ :=
        .keyword .thenWord (by decide)
          (.opened .ifWord (by decide) (spells_group condition hspellsc))
          (spells_group consequent hspellst)
      simpa [Term.isPresent] using hall
  | @twoBranches condition consequent alternative _ _ halt ihc iht ihe =>
    obtain ⟨c, hc, hspellsc⟩ := ihc
    obtain ⟨t, ht, hspellst⟩ := iht
    obtain ⟨e, he, hspellse⟩ := ihe
    refine ⟨"if " ++ group condition c ++ " then " ++ group consequent t
      ++ " else " ++ group alternative e, ?_, ?_⟩
    · rw [render, hc, ht, he]
      show Except.ok (if alternative.isPresent then _ else _) = _
      rw [if_pos halt.isPresent]
    · rw [tokens, if_pos halt.isPresent]
      -- up to `else` it reads as a conditional without an alternative
      have hopening : Spells ("if " ++ group condition c ++ " then " ++ group consequent t) _ :=
        .keyword .thenWord (by decide)
          (.opened .ifWord (by decide) (spells_group condition hspellsc))
          (spells_group consequent hspellst)
      have hword : " else " = " " ++ Keyword.elseWord.word ++ " " := by decide
      have hall := hopening.keyword .elseWord hword (spells_group alternative hspellse)
      simpa using hall
  | @lambda ps body hps _ ih =>
    obtain ⟨b, hb, hspells⟩ := ih
    refine ⟨"lambda (" ++ joinWith ", " ps ++ ") " ++ group body b, by rw [render, hb]; rfl, ?_⟩
    rw [tokens]
    have hword : "lambda " = Keyword.lambdaWord.word ++ " " := by decide
    have hsep : ") " = Punctuation.rightParen.text ++ " " := by decide
    -- parameters and arguments are rows with a mark between each two
    have hparameters : Spells (joinWith ", " ps) _ :=
      spells_joinWith .comma (by decide) (spells_parameters hps)
    have hrow := (spells_empty.mark .leftParen hparameters).separated .rightParen hsep
      (spells_group body hspells)
    have hall := hrow.opened .lambdaWord hword
    simpa [Punctuation.text, Punctuation.toChar, ← String.append_assoc] using hall
  | @call callee arguments _ _ ihf ihas =>
    obtain ⟨f, hf, hspells⟩ := ihf
    obtain ⟨ss, hss, heach⟩ := spells_renderEach ihas
    refine ⟨group callee f ++ "(" ++ joinWith ", " ss ++ ")", by rw [render, hf, hss]; rfl, ?_⟩
    rw [tokens]
    have harguments : Spells (joinWith ", " ss) _ := spells_joinWith .comma (by decide) heach
    have hall := ((spells_group callee hspells).mark .leftParen harguments).mark .rightParen
      spells_empty
    simpa [Punctuation.text, Punctuation.toChar] using hall
  | @block body _ _ ih =>
    obtain ⟨ss, hss, heach⟩ := spells_renderEach ih
    refine ⟨"\x7b" ++ joinWith "; " ss ++ "\x7d", by rw [render, hss]; rfl, ?_⟩
    rw [tokens]
    exact (spells_joinWith .semicolon (by decide) heach).between .leftBrace .rightBrace

end Term

end Lamlet
