import CartScript.Token

/-!
# Integer expressions

Expressions are kept in postfix order and evaluated on a stack of 64-bit words.  Arithmetic wraps
around; division truncates; a shift takes its amount modulo 64.

An expression may name symbols that are not known yet.  Such a symbol counts as 0 while the rest is
evaluated, so that a malformed expression is still noticed, and the value is then `deferred`.
-/

namespace CartScript

/-- A part of an expression in postfix order. -/
inductive Node where
  | number (value : Int64)
  | label (name : String)
  /-- The offset at which the expression is evaluated. -/
  | here
  | unary (op : Symbol)
  | binary (op : Symbol)
  deriving Repr, DecidableEq, Inhabited

/-- An expression: its nodes in postfix order. -/
structure Expr where
  nodes : List Node
  deriving Repr, DecidableEq, Inhabited

/-- The value of an expression, as far as it is known. -/
inductive Value where
  | known (value : Int64)
  /-- Names the first symbol that has no value yet. -/
  | deferred (name : String)
  deriving Repr, DecidableEq, Inhabited

inductive EvalFault where
  | divisionByZero
  | malformed
  | unresolved (name : String)
  deriving Repr, DecidableEq, Inhabited

def EvalFault.message : EvalFault → String
  | .divisionByZero => "division by zero"
  | .malformed => "malformed expression"
  | .unresolved name => s!"undefined symbol \"{name}\""

/-- Where expressions find the values of symbols. -/
abbrev SymbolSource := String → Option Int64

namespace Expr

/-- Truth as a word. -/
def ofBool (b : Bool) : Int64 := if b then 1 else 0

/-- The meaning of the operators in front of a value; other symbols have none. -/
def applyUnary (op : Symbol) (v : Int64) : Except EvalFault Int64 :=
  match op with
  | .plus => .ok v
  | .minus => .ok (-v)
  | .bitNot => .ok (~~~v)
  | .logicalNot => .ok (ofBool (v = 0))
  | _ => .error .malformed

/-- Division and remainder.  A zero divisor is excused while a symbol is missing. -/
def divide (op : Int64 → Int64 → Int64) (a b : Int64) (excused : Bool) : Except EvalFault Int64 :=
  if b = 0 then if excused then .ok 0 else .error .divisionByZero else .ok (op a b)

/-- The meaning of the operators between two values; other symbols have none. -/
def applyBinary (op : Symbol) (a b : Int64) (excused : Bool) : Except EvalFault Int64 :=
  match op with
  | .plus => .ok (a + b)
  | .minus => .ok (a - b)
  | .times => .ok (a * b)
  | .divide => divide (· / ·) a b excused
  | .modulo => divide (· % ·) a b excused
  | .shiftLeft => .ok (a <<< b)
  | .shiftRight => .ok (a >>> b)
  | .less => .ok (ofBool (a < b))
  | .lessEqual => .ok (ofBool (a ≤ b))
  | .greater => .ok (ofBool (b < a))
  | .greaterEqual => .ok (ofBool (b ≤ a))
  | .equal => .ok (ofBool (a = b))
  | .notEqual => .ok (ofBool (a ≠ b))
  | .bitAnd => .ok (a &&& b)
  | .bitOr => .ok (a ||| b)
  | .bitXor => .ok (a ^^^ b)
  | .logicalAnd => .ok (ofBool (a ≠ 0 ∧ b ≠ 0))
  | .logicalOr => .ok (ofBool (a ≠ 0 ∨ b ≠ 0))
  | _ => .error .malformed

/-- An evaluation under way: the values on the stack, the latest first, and the first symbol that
    was missing. -/
structure Machine where
  stack : List Int64 := []
  missing : Option String := none
  deriving Repr, DecidableEq, Inhabited

namespace Machine

def push (m : Machine) (v : Int64) : Machine := { m with stack := v :: m.stack }

/-- A missing symbol counts as 0; the first one is remembered. -/
def pushMissing (m : Machine) (name : String) : Machine :=
  { stack := 0 :: m.stack, missing := m.missing.or (some name) }

/-- Evaluates one node. -/
def step (symbols : SymbolSource) (here : UInt32) (m : Machine) : Node → Except EvalFault Machine
  | .number v => .ok (m.push v)
  | .here => .ok (m.push (Int64.ofNat here.toNat))
  | .label name =>
    match symbols name with
    | some v => .ok (m.push v)
    | none => .ok (m.pushMissing name)
  | .unary op =>
    match m.stack with
    | v :: rest => (applyUnary op v).map fun r => { m with stack := r :: rest }
    | [] => .error .malformed
  | .binary op =>
    match m.stack with
    | b :: a :: rest =>
      (applyBinary op a b m.missing.isSome).map fun r => { m with stack := r :: rest }
    | _ => .error .malformed

/-- Evaluates nodes one after the other. -/
def run (symbols : SymbolSource) (here : UInt32) : List Node → Machine → Except EvalFault Machine
  | [], m => .ok m
  | node :: nodes, m =>
    match m.step symbols here node with
    | .ok next => run symbols here nodes next
    | .error fault => .error fault

/-- The value at the end: exactly one value must be left. -/
def result (m : Machine) : Except EvalFault Value :=
  match m.stack, m.missing with
  | [_], some name => .ok (.deferred name)
  | [v], none => .ok (.known v)
  | _, _ => .error .malformed

end Machine

/-- The value of an expression at an offset, under the symbols known so far. -/
def eval (e : Expr) (symbols : SymbolSource) (here : UInt32) : Except EvalFault Value :=
  match Machine.run symbols here e.nodes {} with
  | .ok m => m.result
  | .error fault => .error fault

/-- Like `eval`, but a missing symbol is a fault. -/
def resolve (e : Expr) (symbols : SymbolSource) (here : UInt32) : Except EvalFault Int64 :=
  match e.eval symbols here with
  | .ok (.known v) => .ok v
  | .ok (.deferred name) => .error (.unresolved name)
  | .error fault => .error fault

/-- The expression that is a plain number. -/
def constant (v : Int64) : Expr := ⟨[.number v]⟩

/-- The number, if the expression is a plain one. -/
def constant? (e : Expr) : Option Int64 :=
  match e.nodes with
  | [.number v] => some v
  | _ => none

/-- The symbols that the expression names, in order and with repetitions. -/
def labels (e : Expr) : List String :=
  e.nodes.filterMap fun
    | .label name => some name
    | _ => none

end Expr

end CartScript
