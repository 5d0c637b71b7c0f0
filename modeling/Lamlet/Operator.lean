/-!
# Operators

The binary operators with their spelling and how tightly they bind.  Trees that no text
denotes may hold a symbol without meaning, so there is a constructor for those.

## Main definitions

* `Operator` — the operators.
* `Operator.symbol`, `Operator.ofSymbol` — their spelling, and its inverse.
* `Infix` — what may stand between two operands: an operator, or the sign of assignment.
* `Infix.precedence` — how tightly it binds.
-/

namespace Lamlet

/-- A binary operator. -/
inductive Operator where
  /-- Addition. -/
  | add
  /-- Subtraction. -/
  | sub
  /-- Multiplication. -/
  | mul
  /-- Division. -/
  | div
  /-- Remainder. -/
  | rem
  /-- Less than. -/
  | lt
  /-- Greater than. -/
  | gt
  /-- Less than or equal. -/
  | le
  /-- Greater than or equal. -/
  | ge
  /-- The second operand if the first counts as true. -/
  | and
  /-- The first operand if it counts as true. -/
  | or
  /-- Loose equality. -/
  | eq
  /-- Loose inequality. -/
  | ne
  /-- A symbol without meaning. -/
  | unknown (symbol : String)
  deriving DecidableEq, Repr, Inhabited

namespace Operator

/-- How an operator is spelled. -/
def symbol : Operator → String
  | add => "+"
  | sub => "-"
  | mul => "*"
  | div => "/"
  | rem => "%"
  | lt => "<"
  | gt => ">"
  | le => "<="
  | ge => ">="
  | and => "&&"
  | or => "||"
  | eq => "=="
  | ne => "!="
  | unknown symbol => symbol

/-- The operators that have a meaning. -/
def known : List Operator := [add, sub, mul, div, rem, lt, gt, le, ge, and, or, eq, ne]

/-- The operator with a given spelling, if it has a meaning. -/
def ofSymbol? (symbol : String) : Option Operator := known.find? fun op => op.symbol = symbol

/-- The operator with a given spelling. -/
def ofSymbol (symbol : String) : Operator := (ofSymbol? symbol).getD (unknown symbol)

/-- How tightly an operator binds; a symbol without meaning does not bind at all. -/
def precedence : Operator → Nat
  | or => 2
  | and => 3
  | lt | gt | le | ge | eq | ne => 7
  | add | sub => 10
  | mul | div | rem => 20
  | unknown _ => 0

/-- An operator with a meaning is read back from its spelling. -/
theorem ofSymbol?_symbol {op : Operator} (h : op ∈ known) : ofSymbol? op.symbol = some op := by
  simp only [known, List.mem_cons, List.not_mem_nil, or_false] at h
  rcases h with rfl | rfl | rfl | rfl | rfl | rfl | rfl | rfl | rfl | rfl | rfl | rfl | rfl
  all_goals decide

/-- Only operators with a meaning are read. -/
theorem mem_known_of_ofSymbol? {symbol : String} {op : Operator} (h : ofSymbol? symbol = some op) :
    op ∈ known :=
  List.mem_of_find?_eq_some h

/-- Only its own spelling is read as an operator. -/
theorem symbol_of_ofSymbol? {symbol : String} {op : Operator} (h : ofSymbol? symbol = some op) :
    op.symbol = symbol := by
  simpa using List.find?_some h

end Operator

/-- What may stand between two operands. -/
inductive Infix where
  /-- The sign of assignment. -/
  | assign
  /-- An operator. -/
  | operator (op : Operator)
  deriving DecidableEq, Repr, Inhabited

namespace Infix

/-- What a symbol means between two operands, if it means anything. -/
def ofSymbol? (symbol : String) : Option Infix :=
  if symbol = "=" then some assign else (Operator.ofSymbol? symbol).map operator

/-- How tightly it binds: assignment binds least. -/
def precedence : Infix → Nat
  | assign => 1
  | operator op => op.precedence

end Infix

end Lamlet
