import Lamlet.Operator
import Lamlet.Number.Basic

/-!
# Terms

The syntax trees of the language.

## Main definitions

* `Term` — a syntax tree.
* `Term.title`, `Term.children` — its sort, and the trees right below it.
* `Term.same` — equality of trees with numbers compared by value.
-/

namespace Lamlet

/-- A syntax tree.  `missing` marks a place without an expression, such as the second
branch of a conditional that has none. -/
inductive Term where
  /-- A number. -/
  | number (value : Number)
  /-- A text. -/
  | text (value : String)
  /-- A truth value. -/
  | boolean (value : Bool)
  /-- A variable. -/
  | var (name : String)
  /-- An assignment. -/
  | assign (target value : Term)
  /-- An operator between two operands. -/
  | binary (op : Operator) (left right : Term)
  /-- A choice between two branches. -/
  | conditional (condition consequent alternative : Term)
  /-- A function. -/
  | lambda (parameters : List String) (body : Term)
  /-- A call. -/
  | call (callee : Term) (arguments : List Term)
  /-- Several expressions in order. -/
  | block (body : List Term)
  /-- No expression. -/
  | missing
  deriving Repr, Inhabited

namespace Term

/-- The sort of a term, as trees name it. -/
def title : Term → String
  | number _ => "Number"
  | text _ => "String"
  | boolean _ => "Boolean"
  | var _ => "Variable"
  | assign _ _ => "Assign"
  | binary _ _ _ => "Binary"
  | conditional _ _ _ => "If"
  | lambda _ _ => "Lambda"
  | call _ _ => "Call"
  | block _ => "Program"
  | missing => "NoneType"

/-- Whether there is an expression at all. -/
def isPresent : Term → Bool
  | missing => false
  | _ => true

/-- The terms right below a term, in the order of the text; missing ones do not count. -/
def children : Term → List Term
  | assign target value => [target, value].filter isPresent
  | binary _ left right => [left, right].filter isPresent
  | conditional condition consequent alternative =>
    [condition, consequent, alternative].filter isPresent
  | lambda _ body => [body].filter isPresent
  | call callee arguments => (callee :: arguments).filter isPresent
  | block body => body.filter isPresent
  | _ => []

mutual

/-- Equality of trees.  Numbers are compared by value, so that both zeros are the same
and `nan` is never the same as anything. -/
def same : Term → Term → Bool
  | number x, number y => x.eqv y
  | text s, text t => s == t
  | boolean a, boolean b => a == b
  | var m, var n => m == n
  | assign t v, assign t' v' => same t t' && same v v'
  | binary op l r, binary op' l' r' => op.symbol == op'.symbol && same l l' && same r r'
  | conditional c t e, conditional c' t' e' => same c c' && same t t' && same e e'
  | lambda ps b, lambda ps' b' => ps == ps' && same b b'
  | call f as, call f' as' => same f f' && sameList as as'
  | block es, block es' => sameList es es'
  | missing, missing => true
  | _, _ => false

/-- Equality of rows of trees. -/
def sameList : List Term → List Term → Bool
  | [], [] => true
  | t :: ts, u :: us => same t u && sameList ts us
  | _, _ => false

end

end Term

end Lamlet
