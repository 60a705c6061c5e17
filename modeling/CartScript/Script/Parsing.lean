import CartScript.Dictionary
import CartScript.Registry
import CartScript.Script.Statement
import CartScript.Script.Supply

/-!
# Reading a script with its macros

`Parsing` is a computation that reads a script.  It may stop with a fault, and what it has read and
noted until then stays.

`Parsing.peek` looks at the next token after the uses of macros are replaced.  A macro that is
being used is not replaced again inside its own use, and a macro with parameters only where a
parenthesis follows its name.
-/

namespace CartScript

/-- What a script may refer to. -/
structure Environment where
  registry : Registry := {}
  game : String := ""
  tree : FileTree := {}
  /-- Where files are looked up after the directory of the script that names them. -/
  includeDirs : List Path := []
  /-- How often a loop may go around before the script is given up. -/
  limit : Nat := 0x100000000
  deriving Repr, DecidableEq, Inhabited

/-- A script that is being read. -/
structure ParseState where
  supply : Supply
  macros : Dictionary Macro := {}
  /-- How many conditional blocks are open. -/
  openBlocks : Nat := 0
  statements : Array (Located Statement) := #[]
  diagnostics : Array Diagnostic := #[]
  deriving Repr, DecidableEq, Inhabited

namespace ParseState

/-- Notes a diagnostic. -/
def note (state : ParseState) (severity : Severity) (position : Position) (text : String) :
    ParseState :=
  { state with diagnostics := state.diagnostics.push ⟨severity, .script position, text⟩ }

/-- Adds a statement. -/
def emit (state : ParseState) (position : Position) (statement : Statement) : ParseState :=
  { state with statements := state.statements.push ⟨position, statement⟩ }

/-- Skips the rest of the line. -/
def skipLine (state : ParseState) : ParseState := { state with supply := state.supply.skipLine }

end ParseState

/-- A computation that reads a script. -/
abbrev Parsing := EStateM ParseFault ParseState

namespace Parsing

/-- The next token, as written. -/
def peekRaw : Parsing Token := fun state =>
  match state.supply.peek with
  | (.ok token, supply) => .ok token { state with supply }
  | (.error fault, supply) => .error (.lex fault) { state with supply }

/-- Drops the next token. -/
def eat : Parsing Unit := modify fun state => { state with supply := state.supply.eat }

/-- The position of the token looked at last. -/
def position : Parsing Position := return (← get).supply.position

/-- Puts a source of tokens on top. -/
def pushFrame (f : Frame) : Parsing Unit :=
  modify fun state => { state with supply := state.supply.push f }

/-- Runs a function on the sources of tokens. -/
def onSupply {α : Type} (f : Supply → Except ParseFault α × Supply) : Parsing α := fun state =>
  match f state.supply with
  | (.ok a, supply) => .ok a { state with supply }
  | (.error fault, supply) => .error fault { state with supply }

/-- Notes a diagnostic. -/
def note (severity : Severity) (position : Position) (text : String) : Parsing Unit :=
  modify fun state => state.note severity position text

/-- Adds a statement. -/
def emit (position : Position) (statement : Statement) : Parsing Unit :=
  modify fun state => state.emit position statement

/-- Skips the rest of the line. -/
def skipLine : Parsing Unit := modify ParseState.skipLine

/-- The result of an operation on expressions under construction. -/
def ofBuild {α : Type} : Except BuildFault α → Parsing α
  | .ok a => pure a
  | .error fault => throw (.build fault)

/-- Puts the use of a macro on top, with the arguments that come next. -/
def call (m : Macro) (count : Nat) : Parsing Unit := do
  let recorded ← onSupply (Supply.recordedArguments count)
  if recorded.args.length ≠ count then throw (.macroArity m.name count recorded.args.length)
  else pushFrame (.expansion m.name (.ofRecorded m recorded))

/-- Replaces the use of a macro, whose name is the next token. -/
def expand (m : Macro) : Parsing Unit := do
  let place ← position
  eat
  match m.params with
  | none => pushFrame (.expansion m.name (.ofMacro m []))
  | some params =>
    if (← peekRaw) ≠ .symbol .openParen then
      pushFrame (.replay (.ofToken m.name ⟨place, .name m.name⟩))
    else
      eat
      call m params.length

/-- The macro that a token is the use of. -/
def useOf? (state : ParseState) : Token → Option Macro
  | .name name =>
    if state.supply.expands && !state.supply.isUsing name then state.macros.find? name else none
  | _ => none

/-- The next token after the uses of macros are replaced, at most `limit` of them. -/
def peek : (limit : Nat) → Parsing Token
  | 0 => throw .endless
  | limit + 1 => do
    let token ← peekRaw
    match useOf? (← get) token with
    | none => return token
    | some m =>
      expand m
      peek limit

/-- The end of the line, or of the script. -/
def lineEnd (limit : Nat) : Parsing Unit := do
  match ← peek limit with
  | .lineEnd => eat
  | .fileEnd => return
  | token => throw (.expectedLineEnd token)

/-- A name that is not replaced. -/
def name (what : String) : Parsing String := do
  match ← peekRaw with
  | .name name =>
    eat
    return name
  | _ => throw (.expectedName what)

end Parsing

end CartScript
