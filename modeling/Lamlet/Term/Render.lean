import Lamlet.Term
import Lamlet.Fault
import Lamlet.Text.Quoted

/-!
# Terms as source text

Every term that the grammar can produce is written back as text that denotes it.
Operands are put in round brackets unless nothing next to them could tear them apart.

## Main definitions

* `Term.isAtom`, `Term.group` — which terms need no brackets, and the brackets.
* `Term.render` — the text of a term; it fails only on numbers without a literal.
-/

namespace Lamlet

open Text

namespace Term

/-- Whether a term needs no brackets next to an operator or a call. -/
def isAtom : Term → Bool
  | number _ => true
  | text _ => true
  | boolean _ => true
  | var _ => true
  | call _ _ => true
  | _ => false

/-- Puts the text of a term in brackets, if it needs them. -/
def group (t : Term) (s : String) : String := if t.isAtom then s else "(" ++ s ++ ")"

/-- The text of a truth value. -/
def booleanText (b : Bool) : String := if b then "true" else "false"

/-- The text of a number, or the fault that it has no literal. -/
def renderNumber (x : Number) : Except Fault String :=
  match x.literal? with
  | some s => .ok s
  | none => .error { cause := .noLiteral x.shown }

mutual

/-- The text of a term. -/
def render : Term → Except Fault String
  | number x => renderNumber x
  | text s => .ok (literal s)
  | boolean b => .ok (booleanText b)
  | var name => .ok name
  | assign target value => do
    let t ← render target
    let v ← render value
    return group target t ++ " = " ++ group value v
  | binary op left right => do
    let l ← render left
    let r ← render right
    return group left l ++ " " ++ op.symbol ++ " " ++ group right r
  | conditional condition consequent alternative => do
    let c ← render condition
    let t ← render consequent
    let e ← render alternative
    let opening := "if " ++ group condition c ++ " then " ++ group consequent t
    return if alternative.isPresent then opening ++ " else " ++ group alternative e else opening
  | lambda parameters body => do
    let b ← render body
    return "lambda (" ++ joinWith ", " parameters ++ ") " ++ group body b
  | call callee arguments => do
    let f ← render callee
    let as ← renderEach arguments
    return group callee f ++ "(" ++ joinWith ", " as ++ ")"
  | block body => do
    let es ← renderEach body
    return "\x7b" ++ joinWith "; " es ++ "\x7d"
  | missing => .ok "None"

/-- The texts of several terms. -/
def renderEach : List Term → Except Fault (List String)
  | [] => .ok []
  | t :: ts => do
    let s ← render t
    let ss ← renderEach ts
    return s :: ss

end

end Term

end Lamlet
