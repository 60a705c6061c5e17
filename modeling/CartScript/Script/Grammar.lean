import CartScript.Script.Arguments
import CartScript.Script.Preprocessor

/-!
# Statements as written
-/

namespace CartScript

/-- The statements that have a name of their own; all other names are labels, constants or codes. -/
inductive Keyword where
  | org
  | push
  | pop
  | align
  | data (width : Nat)
  | pointers
  | fill
  | protect
  | assertion
  | report (severity : Severity)
  deriving Repr, DecidableEq

/-- The keyword of a name. -/
def Keyword.ofName? (name : String) : Option Keyword :=
  [("ORG", org), ("PUSH", push), ("POP", pop), ("ALIGN", align), ("BYTE", data 1),
    ("SHORT", data 2), ("WORD", data 4), ("POIN", pointers), ("FILL", fill),
    ("PROTECT", protect), ("ASSERT", assertion), ("MESSAGE", report .message),
    ("WARNING", report .warning), ("ERROR", report .error)].lookup name

namespace Parsing

/-! ## Expressions -/

/-- Offers a token to an expression; `none` when the token does not belong to it. -/
def offer (b : Expr.Builder) : Token → Except BuildFault (Option Expr.Builder)
  | .number value => (b.value (.number value)).map some
  | .name name => (b.value (if name = "CURRENTOFFSET" then .here else .label name)).map some
  | .symbol .openParen => b.openParen.map some
  | .symbol .closeParen => b.closeParen
  | .symbol op => b.operator op
  | _ => .ok none

/-- Goes on with an expression, for at most `rounds` tokens. -/
def exprFrom (limit : Nat) : (rounds : Nat) → Expr.Builder → Parsing Expr
  | 0, _ => throw .endless
  | rounds + 1, b => do
    match ← ofBuild (offer b (← peek limit)) with
    | none => ofBuild b.finish
    | some next =>
      eat
      exprFrom limit rounds next

/-- An expression: all tokens that can belong to it. -/
def expr (limit : Nat) : Parsing Expr := exprFrom limit limit {}

/-- An expression after a comma, if there is one. -/
def optionalExpr (limit : Nat) : Parsing (Option Expr) := do
  if (← peek limit) = .symbol .comma then
    eat
    return some (← expr limit)
  else return none

/-- The values of a text in data: its bytes. -/
def textValues (text : String) : List Expr :=
  (Utf8.encode text).map fun b => .constant (Int64.ofNat b.toNat)

/-- One item of data: a text where texts are allowed, else an expression. -/
def dataItem (limit : Nat) (texts : Bool) : Parsing (List Expr) := do
  match texts, ← peek limit with
  | true, .text text =>
    eat
    return textValues text
  | _, _ => return [← expr limit]

/-- Items between commas, at most `rounds` of them. -/
def dataFrom (limit : Nat) (texts : Bool) : (rounds : Nat) → Array Expr → Parsing (List Expr)
  | 0, _ => throw .endless
  | rounds + 1, values => do
    let values := values.appendList (← dataItem limit texts)
    if (← peek limit) = .symbol .comma then
      eat
      dataFrom limit texts rounds values
    else return values.toList

/-! ## Arguments of codes -/

/-- The items of a list after the opening bracket, at most `rounds` of them. -/
def itemsFrom (limit : Nat) : (rounds : Nat) → Array Expr → Parsing (List Expr)
  | 0, _ => throw .endless
  | rounds + 1, items => do
    let items := items.push (← expr limit)
    match ← peek limit with
    | .symbol .comma =>
      eat
      itemsFrom limit rounds items
    | .symbol .closeBracket =>
      eat
      return items.toList
    | token => throw (.expectedListEnd .closeBracket token)

/-- An argument: a text, a list or an expression. -/
def arg (limit : Nat) : Parsing Arg := do
  match ← peek limit with
  | .text text =>
    eat
    return .text text
  | .symbol .openBracket =>
    eat
    if (← peek limit) = .symbol .closeBracket then throw .emptyList
    else return .list (← itemsFrom limit limit #[])
  | _ => return .expr (← expr limit)

/-- Arguments up to the closing parenthesis, at most `rounds` of them. -/
def argsFrom (limit : Nat) : (rounds : Nat) → Array Arg → Parsing (List Arg)
  | 0, _ => throw .endless
  | rounds + 1, args => do
    let args := args.push (← arg limit)
    match ← peek limit with
    | .symbol .comma =>
      eat
      argsFrom limit rounds args
    | .symbol .closeParen =>
      eat
      return args.toList
    | token => throw (.expectedListEnd .closeParen token)

/-- The arguments of a code: none without a parenthesis. -/
def args (limit : Nat) : Parsing (List Arg) := do
  if (← peek limit) ≠ .symbol .openParen then return []
  else
    eat
    if (← peek limit) = .symbol .closeParen then
      eat
      return []
    else argsFrom limit limit #[]

/-! ## Statements -/

/-- The rest of a statement after its keyword. -/
def keyword (limit : Nat) (name : String) : Keyword → Parsing Statement
  | .org => return .org (← expr limit)
  | .push => return .push
  | .pop => return .pop
  | .align => return .align (← expr limit)
  | .data width => return .data width (← dataFrom limit (width = 1) limit #[])
  | .pointers => return .pointers (← dataFrom limit false limit #[])
  | .fill => do
    let count ← expr limit
    return .fill count ((← optionalExpr limit).getD (.constant 0))
  | .protect => do
    let start ← expr limit
    return .protect start (← optionalExpr limit)
  | .assertion => return .assertion (← expr limit)
  | .report severity => do
    match ← peek limit with
    | .text text =>
      eat
      return .report severity text
    | _ => throw (.expectedText name)

/-- A code with its arguments.  A code that is not there, and arguments that do not suit it, are
    noted at the start of the statement. -/
def invoke (env : Environment) (place : Position) (name : String) : Parsing Unit := do
  match env.registry.get? name env.game with
  | none =>
    let fault := if env.registry.contains name then .otherGame name env.game else .unknownCode name
    note .error place (ParseFault.message fault)
    skipLine
  | some code =>
    let args ← args env.limit
    lineEnd env.limit
    match code.checkArgs args with
    | .ok () => emit place (.code code.index args)
    | .error fault => note .error place fault.message

/-- A statement that starts with a name.  After a label another statement may follow in the line. -/
def named (env : Environment) (place : Position) (name : String) : Parsing Unit := do
  eat
  match Keyword.ofName? name with
  | some word =>
    let statement ← keyword env.limit name word
    lineEnd env.limit
    emit place statement
  | none =>
    match ← peek env.limit with
    | .symbol .colon =>
      eat
      emit place (.label name)
    | .symbol .assign =>
      eat
      let value ← expr env.limit
      lineEnd env.limit
      emit place (.constant name value)
    | _ => invoke env place name

/-- One statement or directive; `false` at the end of the script. -/
def statement (env : Environment) : Parsing Bool := do
  let token ← peek env.limit
  let place ← position
  match token with
  | .fileEnd => return false
  | .lineEnd => eat
  | .directive d => directive env place d
  | .name name => named env place name
  | token => throw (.unexpected token)
  return true

end Parsing

end CartScript
