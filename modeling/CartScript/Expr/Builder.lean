import CartScript.Expr

/-!
# From infix to postfix

A `Builder` takes the parts of an expression in the order in which they are written and puts them
into postfix order.  Operators wait until something that binds less tightly follows them.
-/

namespace CartScript

/-- Why a part cannot stand where it was offered. -/
inductive BuildFault where
  | expectedOperator
  | expectedValue
  | unbalanced
  deriving Repr, DecidableEq, Inhabited

def BuildFault.message : BuildFault → String
  | .expectedOperator => "expected operator"
  | .expectedValue => "expected value"
  | .unbalanced => "unbalanced parens"

/-- How a symbol may stand in an expression. -/
inductive OperatorRole where
  /-- In front of a value or between two. -/
  | either
  /-- Only in front of a value. -/
  | inFront
  /-- Only between two values. -/
  | between
  deriving Repr, DecidableEq, Inhabited

/-- The roles of the operators; other symbols are none. -/
def Symbol.role? : Symbol → Option OperatorRole
  | .plus | .minus => some .either
  | .logicalNot | .bitNot => some .inFront
  | .times | .divide | .modulo | .shiftLeft | .shiftRight | .less | .lessEqual | .greater
  | .greaterEqual | .equal | .notEqual | .bitAnd | .bitXor | .bitOr | .logicalAnd
  | .logicalOr => some .between
  | _ => none

/-- How loosely an operator between two values binds. -/
def Symbol.looseness : Symbol → Nat
  | .times | .divide | .modulo => 1
  | .plus | .minus => 2
  | .shiftLeft | .shiftRight => 3
  | .less | .lessEqual | .greater | .greaterEqual => 4
  | .equal | .notEqual => 5
  | .bitAnd => 6
  | .bitXor => 7
  | .bitOr => 8
  | .logicalAnd => 9
  | _ => 10

namespace Expr

/-- What waits in a builder. -/
inductive Waiting where
  | paren
  | unary (op : Symbol)
  | binary (op : Symbol)
  deriving Repr, DecidableEq, Inhabited

namespace Waiting

/-- Whether it is to be written out before an operator of the given looseness waits.  An open
    parenthesis keeps waiting for its partner. -/
def yieldsTo (w : Waiting) (looseness : Nat) : Bool :=
  match w with
  | .paren => false
  | .unary _ => true
  | .binary op => op.looseness ≤ looseness

/-- The node that is written out for it. -/
def node? : Waiting → Option Node
  | .paren => none
  | .unary op => some (.unary op)
  | .binary op => some (.binary op)

end Waiting

/-- An expression under construction. -/
structure Builder where
  /-- The nodes written out, the latest first. -/
  output : List Node := []
  /-- The operators and parentheses that wait, the latest first. -/
  waiting : List Waiting := []
  /-- Whether a value has just been completed, so that an operator or the end must follow. -/
  afterValue : Bool := false
  /-- How many parentheses are open. -/
  depth : Nat := 0
  deriving Repr, DecidableEq, Inhabited

namespace Builder

/-- A value: a number, a label or the current offset. -/
def value (b : Builder) (node : Node) : Except BuildFault Builder :=
  if b.afterValue then .error .expectedOperator
  else .ok { b with output := node :: b.output, afterValue := true }

/-- Writes out what yields to an operator of the given looseness. -/
def release (looseness : Nat) : List Waiting → List Node → List Waiting × List Node
  | [], output => ([], output)
  | w :: waiting, output =>
    if w.yieldsTo looseness then release looseness waiting (w.node?.toList ++ output)
    else (w :: waiting, output)

/-- Lets an operator in front of a value wait. -/
def waitUnary (b : Builder) (op : Symbol) : Builder :=
  { b with waiting := .unary op :: b.waiting, afterValue := false }

/-- Lets an operator between two values wait, after all that binds at least as tightly. -/
def waitBinary (b : Builder) (op : Symbol) : Builder :=
  let (waiting, output) := release op.looseness b.waiting b.output
  { b with output, waiting := .binary op :: waiting, afterValue := false }

/-- An operator; `none` when the symbol is none. -/
def operator (b : Builder) (op : Symbol) : Except BuildFault (Option Builder) :=
  match op.role? with
  | none => .ok none
  | some .either => .ok (some (if b.afterValue then b.waitBinary op else b.waitUnary op))
  | some .inFront =>
    if b.afterValue then .error .expectedOperator else .ok (some (b.waitUnary op))
  | some .between =>
    if b.afterValue then .ok (some (b.waitBinary op)) else .error .expectedValue

/-- An opening parenthesis. -/
def openParen (b : Builder) : Except BuildFault Builder :=
  if b.afterValue then .error .expectedOperator
  else .ok { b with depth := b.depth + 1, waiting := .paren :: b.waiting }

/-- Writes out what waits since the latest open parenthesis. -/
def releaseToParen : List Waiting → List Node → Option (List Waiting × List Node)
  | [], _ => none
  | .paren :: waiting, output => some (waiting, output)
  | w :: waiting, output => releaseToParen waiting (w.node?.toList ++ output)

/-- A closing parenthesis; `none` when it closes nothing in this expression. -/
def closeParen (b : Builder) : Except BuildFault (Option Builder) :=
  if b.depth = 0 then .ok none
  else if !b.afterValue then .error .expectedValue
  else match releaseToParen b.waiting b.output with
    | none => .error .unbalanced
    | some (waiting, output) => .ok (some { b with output, waiting, depth := b.depth - 1 })

/-- The finished expression. -/
def finish (b : Builder) : Except BuildFault Expr :=
  if !b.afterValue then .error .expectedValue
  else if b.depth ≠ 0 then .error .unbalanced
  else .ok ⟨b.output.reverse ++ b.waiting.filterMap Waiting.node?⟩

end Builder

end Expr

end CartScript
