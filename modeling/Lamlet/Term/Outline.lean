import Lamlet.Term
import Lamlet.Text.Quoted
import Lamlet.Number.Text

/-!
# Outlines of terms

Two pictures of a term for people.  The *detail* is one line that names every field.
The *outline* has one line for each term in the tree, indented by its depth; fields
that hold no terms stand on that line.

## Main definitions

* `Term.detail` — the term on one line.
* `Term.outline` — the term as an indented tree.
-/

namespace Lamlet

open Text

namespace Term

/-- The spelling of a truth value in details and outlines. -/
def truthText (b : Bool) : String := if b then "True" else "False"

/-- A field of a detail. -/
def field (name value : String) : String := name ++ "=" ++ value

/-- A sort with its fields in round brackets. -/
def fields (title : String) (items : List String) : String :=
  title ++ "(" ++ joinWith ", " items ++ ")"

mutual

/-- A term on one line, every field named. -/
def detail : Term → String
  | number x => fields "Number" [field "value" x.text]
  | text s => fields "String" [field "value" (quoted s)]
  | boolean b => fields "Boolean" [field "value" (truthText b)]
  | var name => fields "Variable" [field "name" (quoted name)]
  | assign target value =>
    fields "Assign" [field "target" (detail target), field "value" (detail value)]
  | binary op left right =>
    fields "Binary"
      [field "operator" (quoted op.symbol), field "left" (detail left),
        field "right" (detail right)]
  | conditional condition consequent alternative =>
    fields "If"
      [field "condition" (detail condition), field "then" (detail consequent),
        field "otherwise" (detail alternative)]
  | lambda parameters body =>
    fields "Lambda" [field "params" (quotedTuple parameters), field "body" (detail body)]
  | call callee arguments =>
    fields "Call" [field "callee" (detail callee), field "args" (tuple (detailEach arguments))]
  | block body => fields "Program" [field "body" (tuple (detailEach body))]
  | missing => "None"

/-- The details of several terms. -/
def detailEach : List Term → List String
  | [] => []
  | t :: ts => detail t :: detailEach ts

end

/-! ### Outlines -/

/-- The indentation at a depth. -/
def indent (depth : Nat) : String := String.ofList (List.replicate (4 * depth) ' ')

/-- The line of a field that should hold a term and holds none. -/
def missingField (name : String) (t : Term) : List String :=
  if t.isPresent then [] else [field name "None"]

/-- The line of a field that holds a row of terms: it is left out if the row starts
with a term, which is then outlined below. -/
def rowField (name : String) (ts : List Term) : List String :=
  match ts with
  | [] => [field name "()"]
  | t :: _ => if t.isPresent then [] else [field name (tuple (detailEach ts))]

/-- The outline of a term, unless it is missing. -/
def present (t : Term) (outlined : String) : List String :=
  if t.isPresent then [outlined] else []

/-- The outlines below a term, each on lines of its own. -/
def nodeLines : List String → String
  | [] => ""
  | [node] => "\n" ++ node
  | node :: nodes => "\n" ++ node ++ "," ++ nodeLines nodes

/-- An outline: the sort with the fields that hold no terms, and below it the outlines
of the terms in the others. -/
def layOutline (depth : Nat) (title : String) (items nodes : List String) : String :=
  let opening := indent depth ++ title ++ "(" ++ joinWith ", " items
  if nodes.isEmpty then opening ++ ")"
  else
    opening ++ (if items.isEmpty then "nodes=[" else ", nodes=[") ++ nodeLines nodes
      ++ "\n" ++ indent depth ++ "])"

mutual

/-- A term as a tree, indented by its depth. -/
def outline (depth : Nat) : Term → String
  | number x => layOutline depth "Number" [field "value" x.text] []
  | text s => layOutline depth "String" [field "value" (quoted s)] []
  | boolean b => layOutline depth "Boolean" [field "value" (truthText b)] []
  | var name => layOutline depth "Variable" [field "name" (quoted name)] []
  | assign target value =>
    layOutline depth "Assign" (missingField "target" target ++ missingField "value" value)
      (present target (outline (depth + 1) target) ++ present value (outline (depth + 1) value))
  | binary op left right =>
    layOutline depth "Binary"
      (field "operator" (quoted op.symbol) :: missingField "left" left
        ++ missingField "right" right)
      (present left (outline (depth + 1) left) ++ present right (outline (depth + 1) right))
  | conditional condition consequent alternative =>
    layOutline depth "If"
      (missingField "condition" condition ++ missingField "then" consequent
        ++ missingField "otherwise" alternative)
      (present condition (outline (depth + 1) condition)
        ++ present consequent (outline (depth + 1) consequent)
        ++ present alternative (outline (depth + 1) alternative))
  | lambda parameters body =>
    layOutline depth "Lambda" (field "params" (quotedTuple parameters) :: missingField "body" body)
      (present body (outline (depth + 1) body))
  | call callee arguments =>
    layOutline depth "Call" (missingField "callee" callee ++ rowField "args" arguments)
      (present callee (outline (depth + 1) callee) ++ outlineEach (depth + 1) arguments)
  | block body =>
    layOutline depth "Program" (rowField "body" body) (outlineEach (depth + 1) body)
  | missing => indent depth ++ "None"

/-- The outlines of the terms in a row; missing ones are left out. -/
def outlineEach (depth : Nat) : List Term → List String
  | [] => []
  | t :: ts => present t (outline depth t) ++ outlineEach depth ts

end

end Term

end Lamlet
