import CartScript.Script.Grammar

/-!
# Reading a whole script

`Script.parse` reads a script to its end.  What is wrong in a line is noted, and reading goes on with
the next one; only an include cycle ends it early.
-/

namespace CartScript

/-- A script that is to be read: its text, and its place if it was read from a file. -/
structure Script where
  name : String
  content : List UInt8
  route : Option Route := none
  deriving Repr, DecidableEq, Inhabited

/-- What came of reading a script. -/
structure Parsed where
  /-- The program, or what ended the reading early. -/
  outcome : Except ParseFault Program
  diagnostics : List Diagnostic

namespace Parsing

/-- Whether a fault ends the reading. -/
def isFatal : ParseFault → Bool
  | .includeCycle _ | .endless => true
  | _ => false

/-- Reads statements to the end of the script, at most `rounds` of them. -/
def statements (env : Environment) : (rounds : Nat) → Parsing Unit
  | 0 => throw .endless
  | rounds + 1 => fun state =>
    match statement env state with
    | .ok true next => statements env rounds next
    | .ok false next => .ok () next
    | .error fault next =>
      let noted := next.note .error next.supply.position fault.message
      if isFatal fault then .error fault noted else statements env rounds noted.skipLine

/-- Reads the script to its end, where no conditional block may be open. -/
def script (env : Environment) : Parsing Unit := do
  statements env env.limit
  if (← get).openBlocks ≠ 0 then note .error (← position) "missing #endif"

end Parsing

namespace Script

/-- Reads a script from a file. -/
def ofFile (tree : FileTree) (path : Path) : Except ParseFault Script :=
  match tree.read path with
  | .ok content =>
    .ok { name := path, content := content.toList, route := (tree.resolve path).toOption }
  | .error fault => .error (.unreadable path fault)

/-- Where tokens of names defined in advance stand. -/
def commandLine : Position := ⟨"<command line>", 0, 0⟩

/-- A macro that stands for a number. -/
def numberMacro (name : String) (value : Int64) : Macro :=
  { name, params := none, body := [⟨commandLine, .token (.number value)⟩] }

/-- Macros that stand for numbers; a later one replaces an earlier one of its name. -/
def predefined (defines : List (String × Int64)) : Dictionary Macro :=
  .ofList (defines.map fun (name, value) => (name, numberMacro name value))

/-- The start of reading a script. -/
def start (script : Script) (defines : List (String × Int64)) : ParseState :=
  { supply := { root := .file script.route (.ofBytes script.name script.content) }
    macros := predefined defines }

/-- Reads a script with some names defined in advance. -/
def parse (script : Script) (env : Environment) (defines : List (String × Int64)) : Parsed :=
  match Parsing.script env (script.start defines) with
  | .ok () state => ⟨.ok state.statements.toList, state.diagnostics.toList⟩
  | .error fault state => ⟨.error fault, state.diagnostics.toList⟩

end Script

end CartScript
