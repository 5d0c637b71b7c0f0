import Lamlet.Term
import Lamlet.Token.Lexer

/-!
# The grammar

Terms are read from tokens by recursive descent.  An expression is read with the readers
for the expressions nested in it as a parameter, so that nesting is the only recursion;
operators are read by precedence climbing.  Recursion takes frames, of which there is a
limited number: how many stand between an expression and one nested in it depends on the
readers that are called in between, and on the climbs under way.

A reader takes the tokens from some point on and returns what it read with the tokens
that are left.  It looks one token ahead and never goes back, so when it fails the
offending token is the first of those left.

## Main definitions

* `Reject`, `Reader` — how reading fails, and readers.
* `Nested` — readers of nested expressions, by the frames in between.
* `Grammar.delimited`, `Grammar.calls`, `Grammar.climb` — the three loops.
* `Grammar.primary`, `Grammar.atom`, `Grammar.operation`, `Grammar.expressionWith` — the
  levels of an expression.
* `Grammar.nested`, `Grammar.expression` — an expression within a number of frames.
* `Grammar.program` — expressions up to the end.
* `parse` — the terms of a text, or the fault with the place where it was found.
-/

namespace Lamlet

/-- How reading fails. -/
inductive Reject where
  /-- There are no frames left for an expression. -/
  | tooDeep
  /-- Something else was wanted than the first of the tokens that are left. -/
  | unwanted (wanted : Wanted) (rest : List Token)
  deriving DecidableEq, Repr, Inhabited

/-- A reader of the tokens from some point on. -/
abbrev Reader (α : Type) := List Token → Except Reject (α × List Token)

/-- Readers of nested expressions, by the number of frames that are taken between the reader
that is at work and the nested expression. -/
abbrev Nested := Nat → Reader Term

/-- The readers of nested expressions for a reader that is called with so many frames. -/
abbrev Nested.below (inner : Nested) (frames : Nat) : Nested := fun k => inner (k + frames)

/-- A reader that takes no account of frames reads nested expressions at any distance. -/
instance : Coe (Reader Term) Nested := ⟨fun p _ => p⟩

namespace Grammar

/-! ### Single tokens -/

/-- Whether a punctuation mark comes next. -/
def opens (m : Punctuation) : List Token → Bool
  | .mark m' :: _ => m' = m
  | _ => false

/-- Consumes a punctuation mark. -/
def expectMark (m : Punctuation) (ts : List Token) : Except Reject (List Token) :=
  if opens m ts then .ok ts.tail else .error (.unwanted (.mark m) ts)

/-- Consumes a keyword. -/
def expectKeyword (k : Keyword) : List Token → Except Reject (List Token)
  | .keyword k' :: ts =>
    if k' = k then .ok ts else .error (.unwanted (.keyword k) (.keyword k' :: ts))
  | ts => .error (.unwanted (.keyword k) ts)

/-- Reads the name of a parameter. -/
def parameter : Reader String
  | .name n :: ts => .ok (n, ts)
  | ts => .error (.unwanted .parameter ts)

/-! ### Rows -/

/-- Reads the items of a row after the first one, each after a separator, and the mark
that closes the row.  Every item takes a token, so the tokens are budget enough. -/
def moreItems {α : Type} (close separator : Punctuation) (item : Reader α) :
    List Token → Reader (List α)
  | budget, ts =>
    if opens close ts then .ok ([], ts.tail)
    else
      match budget with
      | [] => .error (.unwanted (.mark separator) ts)
      | _ :: budget => do
        let ts ← expectMark separator ts
        let (x, ts) ← item ts
        let (xs, ts) ← moreItems close separator item budget ts
        return (x :: xs, ts)

/-- Reads a row between two marks.  It may be empty; no separator may end it. -/
def delimited {α : Type} (start close separator : Punctuation) (item : Reader α) :
    Reader (List α) := fun ts => do
  let ts ← expectMark start ts
  if opens close ts then
    return ([], ts.tail)
  else
    let (x, ts) ← item ts
    let (xs, ts) ← moreItems close separator item ts ts
    return (x :: xs, ts)

/-- What a row of expressions between braces stands for: nothing is `false`, a single
expression is itself. -/
def blockOf : List Term → Term
  | [] => .boolean false
  | [e] => e
  | es => .block es

/-! ### Levels of an expression

`inner` reads the expressions nested in this one.  The frames of a reader are taken by its
caller: two for an operation, one for an operand and two more for what it starts with, one
for the calls that follow and two for each row, one for a climb, and one for the rest of a
conditional or of a function. -/

/-- Turns a term into calls for as long as arguments follow it. -/
def calls (inner : Reader Term) : List Token → Term → Reader Term
  | budget, callee, ts =>
    if opens .leftParen ts then
      match budget with
      | [] => .ok (callee, ts)
      | _ :: budget => do
        let (arguments, ts) ← delimited .leftParen .rightParen .comma inner ts
        calls inner budget (.call callee arguments) ts
    else
      .ok (callee, ts)

/-- Consumes the `then` before the first branch of a conditional.  Before a branch in
braces it may be left out. -/
def expectBranch (ts : List Token) : Except Reject (List Token) :=
  if opens .leftBrace ts then .ok ts else expectKeyword .thenWord ts

/-- Reads the rest of a conditional. -/
def conditional (inner : Reader Term) : Reader Term := fun ts => do
  let (condition, ts) ← inner ts
  let ts ← expectBranch ts
  let (consequent, ts) ← inner ts
  match ts with
  | .keyword .elseWord :: ts =>
    let (alternative, ts) ← inner ts
    return (.conditional condition consequent alternative, ts)
  | ts => return (.conditional condition consequent .missing, ts)

/-- Reads the rest of a function: its parameters and its body. -/
def function (inner : Reader Term) : Reader Term := fun ts => do
  let (parameters, ts) ← delimited .leftParen .rightParen .comma parameter ts
  let (body, ts) ← inner ts
  return (.lambda parameters body, ts)

/-- Reads an operand without the calls that follow it. -/
def primary (inner : Nested) : Reader Term
  | .mark .leftParen :: ts => do
    let (e, ts) ← inner 0 ts
    let ts ← expectMark .rightParen ts
    return (e, ts)
  | .mark .leftBrace :: ts => do
    let (es, ts) ← delimited .leftBrace .rightBrace .semicolon (inner 2) (.mark .leftBrace :: ts)
    return (blockOf es, ts)
  | .keyword .ifWord :: ts => conditional (inner 1) ts
  | .keyword .trueWord :: ts => .ok (.boolean true, ts)
  | .keyword .falseWord :: ts => .ok (.boolean false, ts)
  | .keyword .lambdaWord :: ts => function (inner 1) ts
  | .keyword .lambdaLetter :: ts => function (inner 1) ts
  | .name n :: ts => .ok (.var n, ts)
  | .number x :: ts => .ok (.number x, ts)
  | .text s :: ts => .ok (.text s, ts)
  | ts => .error (.unwanted .expression ts)

/-- Reads an operand with the calls that follow it. -/
def atom (inner : Nested) : Reader Term := fun ts => do
  let (e, ts) ← primary (inner.below 2) ts
  calls (inner 3) ts e ts

/-- What stands between the operand just read and the next one, if it binds tighter than
the threshold. -/
def nextInfix? (threshold : Nat) : List Token → Option (Infix × List Token)
  | .operator symbol :: ts =>
    match Infix.ofSymbol? symbol with
    | some op => if threshold < op.precedence then some (op, ts) else none
    | none => none
  | _ => none

/-- The term of two operands. -/
def join : Infix → Term → Term → Term
  | .assign, left, right => .assign left right
  | .operator op, left, right => .binary op left right

/-- Precedence climbing: as long as what follows binds tighter than the threshold, reads
a right operand, with all that binds tighter still, and joins it to the left one.  What binds
tighter is read by another climb, in a frame of its own. -/
def climb (inner : Nested) : List Token → Nat → Term → Reader Term
  | budget, threshold, left, ts =>
    match nextInfix? threshold ts with
    | none => .ok (left, ts)
    | some (op, rest) =>
      match budget with
      | [] => .ok (left, ts)
      | _ :: budget => do
        let (right, ts) ← atom (inner.below 1) rest
        let (right, ts) ← climb (inner.below 1) budget op.precedence right ts
        climb inner budget threshold (join op left right) ts

/-- Reads operands with operators between them. -/
def operation (inner : Nested) : Reader Term := fun ts => do
  let (left, ts) ← atom (inner.below 1) ts
  climb (inner.below 1) ts 0 left ts

/-- Reads an expression, given the readers for those nested in it. -/
def expressionWith (inner : Nested) : Reader Term := fun ts => do
  let (e, ts) ← operation (inner.below 2) ts
  calls (inner 3) ts e ts

/-- Reads an expression when some of the frames are taken first and it has the others: one for
itself, and the rest for all that is nested in it.  Whether frames are left is looked at only
where an expression starts; what is called on the way to none, such as the lexer, and what is
below the program on the stack are not counted. -/
def nested : Nat → Nested
  | 0, _ => fun _ => .error .tooDeep
  | frames + 1, 0 => expressionWith (nested frames)
  | frames + 1, k + 1 => nested frames k

/-- Reads an expression within a number of frames. -/
def expression (frames : Nat) : Reader Term := nested frames 0

/-- Reads expressions up to the end, a semicolon between each two; one may stand at the
end as well. -/
def programWithin (frames : Nat) : List Token → List Token → Except Reject (List Term)
  | _, [] => .ok []
  | [], _ => .ok []
  | _ :: budget, ts => do
    let (e, ts) ← expression frames ts
    match ts with
    | [] => return [e]
    | ts =>
      let ts ← expectMark .semicolon ts
      let es ← programWithin frames budget ts
      return e :: es

/-- Reads a whole program. -/
def program (frames : Nat) (ts : List Token) : Except Reject (List Term) :=
  programWithin frames ts ts

end Grammar

/-! ### Whole texts -/

/-- Why a text is no program. -/
inductive ParseFailure where
  /-- It nests deeper than the limit. -/
  | tooDeep
  /-- It has a fault, found when the reader had come to the given place. -/
  | fault (fault : Fault) (place : Place)
  deriving DecidableEq, Repr, Inhabited

/-- What a failed attempt to read a text raises. -/
def ParseFailure.interruption : ParseFailure → Interruption
  | tooDeep => .tooDeep
  | fault f _ => .fault f

namespace Lexed

/-- The place of the reader when it looks at the first of the tokens that are left: right
after that token, or where reading the text stopped. -/
def placeOf (l : Lexed) (rest : List Token) : Place :=
  match rest with
  | [] => l.stop.place
  | _ :: _ =>
    match l.tokens.drop (l.tokens.length - rest.length) with
    | [] => l.stop.place
    | t :: _ => t.after

/-- The fault of a text whose tokens are rejected.  If the reader ran into the end of
tokens that stop early, what stopped them is the fault. -/
def rejection (l : Lexed) (wanted : Wanted) (rest : List Token) : ParseFailure :=
  match rest, l.fault? with
  | [], some fault => .fault fault l.stop.place
  | rest, _ =>
    let place := l.placeOf rest
    .fault (.atPlace (.syntactic wanted rest.head?) place) place

/-- The terms that the tokens of a text denote, read within a number of frames. -/
def parse (frames : Nat) (l : Lexed) : Except ParseFailure (List Term) :=
  match Grammar.program frames (l.tokens.map (·.token)) with
  | .error .tooDeep => .error .tooDeep
  | .error (.unwanted wanted rest) => .error (l.rejection wanted rest)
  | .ok es =>
    match l.fault? with
    | some fault => .error (.fault fault l.stop.place)
    | none => .ok es

end Lexed

/-- The terms of a text, read within a depth limit. -/
def parse (frames : Nat) (source : String) : Except ParseFailure (List Term) :=
  (lex source).parse frames

end Lamlet
