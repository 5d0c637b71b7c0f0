import Mathlib.Algebra.Ring.Nat
import Mathlib.Data.List.Basic
import Mathlib.Tactic.Tauto
import Lamlet.Text.Quoted

/-!
# Quotations end where they end

A quotation can be told from whatever stands behind it: a text that starts with the quotation
of `s` starts with the quotation of no other text, and no other cut of it gives the quotation
of `s`.  The same then holds of several quotations in round brackets.

## Main definitions

* `Separates` — two things are told apart by what is written for them, however the texts go on.

## Main results

* `separates_row` — a row of things is told from another one by the mark at its end.
* `separates_escapeChar` — a character is read off its escape.
* `separates_quoted`, `separates_quotedTuple` — **different texts have different quotations**,
  of which none starts another one.
-/

namespace Lamlet.Text

/-! ### Texts that end where they end -/

section Separates

variable {α : Type} {write : α → List Char}

/-- What is written for `a` and for `b` starts the same text only if they are the same, and then
the text goes on in one way. -/
def Separates (write : α → List Char) (a b : α) : Prop :=
  ∀ r r' : List Char, write a ++ r = write b ++ r' → a = b ∧ r = r'

/-- **A row is told from another one** if its members are, and if none of them starts with the
mark at the end. -/
theorem separates_row {stop : Char} {as bs : List α}
    (hstop : ∀ a ∈ as ++ bs, ∀ r r', write a ++ r ≠ stop :: r')
    (h : ∀ a ∈ as, ∀ b ∈ bs, Separates write a b) :
    Separates (fun l => l.flatMap write ++ [stop]) as bs := by
  induction as generalizing bs with
  | nil =>
    intro r r' heq
    cases bs with
    | nil => exact ⟨rfl, List.tail_eq_of_cons_eq heq⟩
    | cons b bs =>
      -- one row ends where the other one goes on
      simp only [List.flatMap_cons, List.append_assoc] at heq
      exact absurd heq.symm (hstop b (by simp) _ _)
  | cons a as ih =>
    intro r r' heq
    cases bs with
    | nil =>
      simp only [List.flatMap_cons, List.append_assoc] at heq
      exact absurd heq (hstop a (by simp) _ _)
    | cons b bs =>
      simp only [List.flatMap_cons, List.append_assoc] at heq
      obtain ⟨rfl, hrest⟩ := h a (by simp) b (by simp) _ _ heq
      -- the first members are the same, so the rest of one row is told from that of the other
      have hmembers : ∀ a' ∈ as ++ bs, ∀ r r', write a' ++ r ≠ stop :: r' := by
        intro a' ha'
        apply hstop a'
        simp only [List.mem_append, List.mem_cons] at ha' ⊢
        tauto
      have hrow : ∀ a ∈ as, ∀ b ∈ bs, Separates write a b := by
        intro a ha b hb
        exact h a (List.mem_cons_of_mem _ ha) b (List.mem_cons_of_mem _ hb)
      obtain ⟨rfl, rfl⟩ := ih hmembers hrow r r' (by simpa using hrest)
      exact ⟨rfl, rfl⟩

/-- A text is told from another one by a mark at the end that does not stand in them. -/
theorem separates_of_notMem {stop : Char} {cs cs' : List Char} (h : stop ∉ cs) (h' : stop ∉ cs') :
    Separates (fun cs => cs ++ [stop]) cs cs' := by
  have hstop : ∀ c ∈ cs ++ cs', ∀ r r', [c] ++ r ≠ stop :: r' := by
    intro c hc r r' heq
    obtain rfl : c = stop := List.head_eq_of_cons_eq heq
    rcases List.mem_append.1 hc with hmem | hmem
    · exact h hmem
    · exact h' hmem
  have hrow := separates_row hstop fun c _ c' _ r r' heq => List.cons.inj heq
  simpa only [Separates, List.flatMap_singleton'] using hrow

end Separates

/-! ### Escapes -/

theorem length_hexDigits (width n : ℕ) : (hexDigits width n).length = width := by
  induction width generalizing n with
  | zero => rfl
  | succ width ih => rw [hexDigits, List.length_append, ih, List.length_singleton]

theorem digitChar_inj : ∀ m < 16, ∀ n < 16, Nat.digitChar m = Nat.digitChar n → m = n := by
  decide

/-- A number is read off its hexadecimal digits, if there are enough of them. -/
theorem hexDigits_inj {width m n : ℕ} (hm : m < 16 ^ width) (hn : n < 16 ^ width)
    (h : hexDigits width m = hexDigits width n) : m = n := by
  induction width generalizing m n with
  | zero => omega
  | succ width ih =>
    obtain ⟨hinit, hlast⟩ := List.append_inj' h rfl
    have hmod : m % 16 = n % 16 :=
      digitChar_inj _ (Nat.mod_lt m (by decide)) _ (Nat.mod_lt n (by decide))
        (List.head_eq_of_cons_eq hlast)
    have hdiv : m / 16 = n / 16 := by
      rw [Nat.pow_succ'] at hm hn
      exact ih (Nat.div_lt_of_lt_mul hm) (Nat.div_lt_of_lt_mul hn) hinit
    omega

/-- The character that a letter stands for after a backslash, if it stands for one by itself. -/
def named? (k : Char) : Option Char :=
  if k = 'n' then some '\n'
  else if k = 'r' then some '\r'
  else if k = 't' then some '\t'
  else if k = '\\' ∨ k = '\x27' ∨ k = '"' then some k
  else none

/-- How many digits follow a letter that stands for no character by itself. -/
def codeWidth (k : Char) : ℕ := if k = 'x' then 2 else if k = 'u' then 4 else 8

theorem escapeCode_eq (c : Char) :
    ∃ k, escapeCode c.toNat = '\\' :: k :: hexDigits (codeWidth k) c.toNat ∧ named? k = none ∧
      c.toNat < 16 ^ codeWidth k := by
  unfold escapeCode
  split
  · next hsmall => exact ⟨'x', rfl, by decide, hsmall⟩
  · split
    · next hmiddle => exact ⟨'u', rfl, by decide, hmiddle⟩
    · have hchar : c.toNat < 0x110000 := by
        rcases c.valid with h | ⟨-, h⟩
        · exact Nat.lt_trans h (by decide)
        · exact h
      exact ⟨'U', rfl, by decide, Nat.lt_trans hchar (by decide)⟩

variable {mark : Char}

/-- A character stands for itself, or after a backslash for its name or its code. -/
theorem escapeChar_cases (hmark : mark = '\x27' ∨ mark = '"') (c : Char) :
    (escapeChar mark c = [c] ∧ c ≠ '\\' ∧ c ≠ mark) ∨
    (∃ k, escapeChar mark c = ['\\', k] ∧ named? k = some c) ∨
    ∃ k, escapeChar mark c = '\\' :: k :: hexDigits (codeWidth k) c.toNat ∧ named? k = none ∧
      c.toNat < 16 ^ codeWidth k := by
  unfold escapeChar
  split
  · next hself =>
    right; left
    refine ⟨c, rfl, ?_⟩
    rcases hself with rfl | rfl
    · rfl
    · rcases hmark with rfl | rfl
      · rfl
      · rfl
  · next hplain =>
    rw [not_or] at hplain
    split
    · next h => exact .inr (.inl ⟨'n', rfl, by rw [h]; rfl⟩)
    · split
      · next h => exact .inr (.inl ⟨'r', rfl, by rw [h]; rfl⟩)
      · split
        · next h => exact .inr (.inl ⟨'t', rfl, by rw [h]; rfl⟩)
        · split
          · exact .inl ⟨rfl, hplain⟩
          · exact .inr (.inr (escapeCode_eq c))

/-- **A character is read off its escape.** -/
theorem separates_escapeChar (hmark : mark = '\x27' ∨ mark = '"') (c c' : Char) :
    Separates (escapeChar mark) c c' := by
  intro r r' h
  rcases escapeChar_cases hmark c with ⟨he, hslash, -⟩ | ⟨k, he, hk⟩ | ⟨k, he, hk, hlt⟩
  · -- a character that stands for itself is no backslash
    rcases escapeChar_cases hmark c' with ⟨he', -, -⟩ | ⟨k', he', -⟩ | ⟨k', he', -, -⟩
    · rw [he, he'] at h
      exact List.cons.inj h
    · rw [he, he'] at h
      exact absurd (List.cons.inj h).1 hslash
    · rw [he, he'] at h
      exact absurd (List.cons.inj h).1 hslash
  · -- the letter behind the backslash tells a name from a code
    rcases escapeChar_cases hmark c' with ⟨he', hslash', -⟩ | ⟨k', he', hk'⟩ | ⟨k', he', hk', -⟩
    · rw [he, he'] at h
      exact absurd (List.cons.inj h).1.symm hslash'
    · rw [he, he'] at h
      obtain ⟨rfl, rfl⟩ := List.cons.inj (List.cons.inj h).2
      exact ⟨Option.some.inj (hk.symm.trans hk'), rfl⟩
    · rw [he, he'] at h
      obtain rfl := (List.cons.inj (List.cons.inj h).2).1
      exact absurd (hk.symm.trans hk') (Option.some_ne_none c)
  · rcases escapeChar_cases hmark c' with ⟨he', hslash', -⟩ | ⟨k', he', hk'⟩ | ⟨k', he', -, hlt'⟩
    · rw [he, he'] at h
      exact absurd (List.cons.inj h).1.symm hslash'
    · rw [he, he'] at h
      obtain rfl := (List.cons.inj (List.cons.inj h).2).1
      exact absurd (hk'.symm.trans hk) (Option.some_ne_none c')
    · rw [he, he'] at h
      obtain ⟨rfl, hdigits⟩ := List.cons.inj (List.cons.inj h).2
      -- codes with the same letter have the same width
      have hlength : (hexDigits (codeWidth k) c.toNat).length
          = (hexDigits (codeWidth k) c'.toNat).length := by
        rw [length_hexDigits, length_hexDigits]
      obtain ⟨hcode, rfl⟩ := List.append_inj hdigits hlength
      exact ⟨Char.toNat_inj.1 (hexDigits_inj hlt hlt' hcode), rfl⟩

/-- No escape starts with the mark at the end. -/
theorem escapeChar_append_ne (hmark : mark = '\x27' ∨ mark = '"') (c : Char) (r r' : List Char) :
    escapeChar mark c ++ r ≠ mark :: r' := by
  have hslash : '\\' ≠ mark := by
    rcases hmark with rfl | rfl
    · decide
    · decide
  intro h
  -- an escape starts with a backslash, or with a character that is not the mark
  rcases escapeChar_cases hmark c with ⟨he, -, hne⟩ | ⟨k, he, -⟩ | ⟨k, he, -, -⟩
  · rw [he] at h
    exact hne (List.cons.inj h).1
  · rw [he] at h
    exact hslash (List.cons.inj h).1
  · rw [he] at h
    exact hslash (List.cons.inj h).1

/-! ### Quotations -/

theorem markFor_eq (cs : List Char) : markFor cs = '\x27' ∨ markFor cs = '"' := by
  unfold markFor
  split
  · exact .inr rfl
  · exact .inl rfl

/-- **Different texts have different quotations**, and none starts another one.  The mark is
chosen by the text, so the two may differ in it; then the quotations differ at once. -/
theorem separates_quoted (s s' : String) : Separates (fun s => (quoted s).toList) s s' := by
  intro r r' h
  simp only [quoted, String.toList_ofList, List.cons_append] at h
  obtain ⟨hmark, hrow⟩ := List.cons.inj h
  rw [← hmark] at hrow
  have hmarks := markFor_eq s.toList
  obtain ⟨hchars, hrest⟩ := separates_row (fun c _ => escapeChar_append_ne hmarks c)
    (fun c _ c' _ => separates_escapeChar hmarks c c') r r' hrow
  exact ⟨String.toList_inj.1 hchars, hrest⟩

/-- No quotation starts with a bracket. -/
theorem quoted_append_ne (s : String) (r r' : List Char) : (quoted s).toList ++ r ≠ ')' :: r' := by
  intro h
  simp only [quoted, String.toList_ofList, List.cons_append] at h
  have hmark := (List.cons.inj h).1
  rcases markFor_eq s.toList with hm | hm
  · rw [hm] at hmark
    exact absurd hmark (by decide)
  · rw [hm] at hmark
    exact absurd hmark (by decide)

/-! ### Quotations in brackets -/

/-- A further quotation in a row. -/
def further (s : String) : List Char := ',' :: ' ' :: (quoted s).toList

/-- What follows the first quotation in brackets: if it is the only one, a comma. -/
def closing : List String → List Char
  | [] => [',', ')']
  | s :: ss => (s :: ss).flatMap further ++ [')']

theorem toList_joinWith_quoted (s : String) (ss : List String) :
    (joinWith ", " ((s :: ss).map quoted)).toList = (quoted s).toList ++ ss.flatMap further := by
  induction ss generalizing s with
  | nil => simp [joinWith]
  | cons s' ss ih =>
    have hjoin : joinWith ", " ((s :: s' :: ss).map quoted)
        = quoted s ++ ", " ++ joinWith ", " ((s' :: ss).map quoted) := rfl
    rw [hjoin, String.toList_append, String.toList_append, ih]
    simp [further]

theorem toList_quotedTuple_cons (s : String) (ss : List String) :
    (quotedTuple (s :: ss)).toList = '(' :: ((quoted s).toList ++ closing ss) := by
  cases ss with
  | nil => simp [quotedTuple, tuple, closing]
  | cons s' ss =>
    have htuple : quotedTuple (s :: s' :: ss)
        = "(" ++ joinWith ", " ((s :: s' :: ss).map quoted) ++ ")" := rfl
    rw [htuple, String.toList_append, String.toList_append, toList_joinWith_quoted]
    simp [closing]

theorem separates_further (s s' : String) : Separates further s s' := by
  intro r r' h
  exact separates_quoted s s' r r' (List.cons.inj (List.cons.inj h).2).2

theorem separates_closing (ss ss' : List String) : Separates closing ss ss' := by
  intro r r' h
  cases ss with
  | nil =>
    cases ss' with
    | nil => exact ⟨rfl, List.append_cancel_left h⟩
    | cons s' ss' => exact absurd (List.cons.inj (List.cons.inj h).2).1 (by decide)
  | cons s ss =>
    cases ss' with
    | nil => exact absurd (List.cons.inj (List.cons.inj h).2).1 (by decide)
    | cons s' ss' =>
      have hstop : ∀ t ∈ (s :: ss) ++ (s' :: ss'), ∀ r r', further t ++ r ≠ ')' :: r' := by
        intro t _ r r' h
        exact absurd (List.cons.inj h).1 (by decide)
      exact separates_row hstop (fun s _ s' _ => separates_further s s') r r' h

/-- **Different rows of texts have different quotations**, and none starts another one. -/
theorem separates_quotedTuple (ss ss' : List String) :
    Separates (fun ss => (quotedTuple ss).toList) ss ss' := by
  intro r r' h
  cases ss with
  | nil =>
    cases ss' with
    | nil => exact ⟨rfl, List.append_cancel_left h⟩
    | cons s' ss' =>
      simp only [toList_quotedTuple_cons, List.cons_append, List.append_assoc] at h
      exact absurd (List.cons.inj h).2.symm (quoted_append_ne s' _ _)
  | cons s ss =>
    cases ss' with
    | nil =>
      simp only [toList_quotedTuple_cons, List.cons_append, List.append_assoc] at h
      exact absurd (List.cons.inj h).2 (quoted_append_ne s _ _)
    | cons s' ss' =>
      simp only [toList_quotedTuple_cons, List.cons_append, List.append_assoc] at h
      obtain ⟨rfl, hclosing⟩ := separates_quoted s s' _ _ (List.cons.inj h).2
      obtain ⟨rfl, rfl⟩ := separates_closing ss ss' r r' hclosing
      exact ⟨rfl, rfl⟩

end Lamlet.Text
