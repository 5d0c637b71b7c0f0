import Lamlet.Value

/-!
# Operators on values

Arithmetic and ordering are for numbers only; the logical operators return one of their
operands; equality is loose.

## Main definitions

* `Operator.numeric?` — what an arithmetic or ordering operator does to two numbers.
* `Operator.apply` — what an operator does to two values.
-/

namespace Lamlet.Operator

/-- What an operator that is for numbers only does to two of them. -/
def numeric? : Operator → Option (Number → Number → Value)
  | add => some fun x y => .number (x.add y)
  | sub => some fun x y => .number (x.sub y)
  | mul => some fun x y => .number (x.mul y)
  | div => some fun x y => .number (x.div y)
  | rem => some fun x y => .number (x.rem y)
  | lt => some fun x y => .boolean (x.lt y)
  | gt => some fun x y => .boolean (y.lt x)
  | le => some fun x y => .boolean (x.le y)
  | ge => some fun x y => .boolean (y.le x)
  | _ => none

/-- The number that an operand is, or the fault that it is none. -/
def operand (op : Operator) : Value → Except Fault Number
  | .number x => .ok x
  | v => .error { cause := .notANumber v.shown op.symbol }

/-- What an operator does to two values. -/
def apply (op : Operator) (left right : Value) : Except Fault Value :=
  match op.numeric? with
  | some f => do
    let x ← op.operand left
    let y ← op.operand right
    return f x y
  | none =>
    match op with
    | and => .ok (if left.isTruthy then right else left)
    | or => .ok (if left.isTruthy then left else right)
    | eq => .ok (.boolean (left.looselyEqual right))
    | ne => .ok (.boolean (!left.looselyEqual right))
    | op => .error { cause := .unknownOperator op.symbol }

end Lamlet.Operator
