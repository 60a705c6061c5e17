import CartScript.Script.Parsing

/-!
# Directives

Including files, defining macros and choosing between blocks.
-/

namespace CartScript.Parsing

/-- Where a file that the script names is: in the directory of the innermost script that was read
    from a file, else in one of the include directories. -/
def findFile? (env : Environment) (supply : Supply) (name : Path) : Option Path :=
  let nearest := match supply.frames.findSome? Frame.route? with
    | some route => Path.join route.parent.render name
    | none => name
  (nearest :: env.includeDirs.map (Path.join · name)).find? env.tree.isFile

/-- A file's content or its fault. -/
def ofFile {α : Type} (path : Path) : Except FileFault α → Parsing α
  | .ok a => pure a
  | .error fault => throw (.unreadable path fault)

/-- The file that a directive names, after the end of the line. -/
def namedFile (env : Environment) : Parsing (String × Path) := do
  eat
  match ← peekRaw with
  | .text name =>
    eat
    lineEnd env.limit
    match findFile? env (← get).supply name with
    | some path => return (name, path)
    | none => throw (.fileNotFound name)
  | _ => throw (.expectedName "file name")

/-- `#incbin`: the bytes of a file. -/
def includeBytes (env : Environment) (place : Position) : Parsing Unit := do
  let (_, path) ← namedFile env
  let content ← ofFile path (env.tree.read path)
  emit place (.bytes content)

/-- `#include`: reads another script in place, unless it is being read already. -/
def includeScript (env : Environment) : Parsing Unit := do
  let (name, path) ← namedFile env
  let route ← ofFile path (env.tree.resolve path)
  if (← get).supply.frames.any fun f => f.route? == some route then throw (.includeCycle name)
  else
    let content ← ofFile path (env.tree.read path)
    pushFrame (.file (some route) (.ofBytes path content.toList))

/-- The names of parameters after the opening parenthesis, at most `limit` of them. -/
def paramNames : (limit : Nat) → Array String → Parsing (List String)
  | 0, _ => throw .endless
  | limit + 1, names => do
    let next ← name "parameter name"
    match ← peekRaw with
    | .symbol .comma =>
      eat
      paramNames limit (names.push next)
    | .symbol .closeParen =>
      eat
      return (names.push next).toList
    | token => throw (.expectedListEnd .closeParen token)

/-- The parameters of a macro, if a parenthesis follows its name directly. -/
def params (env : Environment) (name : String) (place : Position) :
    Parsing (Option (List String)) := do
  if (← peekRaw) ≠ .symbol .openParen then return none
  else
    let next ← position
    if next.line ≠ place.line ∨ next.column ≠ place.column + name.utf8ByteSize then return none
    else
      eat
      if (← peekRaw) = .symbol .closeParen then
        eat
        return some []
      else return some (← paramNames env.limit #[])

/-- `#define`: names the tokens up to the end of the line. -/
def define (env : Environment) : Parsing Unit := do
  eat
  match ← peekRaw with
  | .name name =>
    let place ← position
    eat
    let params ← params env name place
    let body ← onSupply (Supply.body params #[])
    if (← get).macros.contains name then
      note .warning place s!"macro \"{name}\" redefined"
    modify fun state => { state with macros := state.macros.put name { name, params, body } }
  | _ => throw (.expectedName "macro name")

/-- `#undef`: forgets a macro. -/
def undefine (env : Environment) : Parsing Unit := do
  eat
  let name ← name "macro name"
  modify fun state => { state with macros := state.macros.erase name }
  lineEnd env.limit

/-- `#ifdef` and `#ifndef`: reads the block if the macro is there as wanted, else what follows its
    `#else`. -/
def conditional (env : Environment) (wanted : Bool) : Parsing Unit := do
  eat
  let name ← name "macro name"
  lineEnd env.limit
  let chosen ← if (← get).macros.contains name = wanted then pure true
    else onSupply (Supply.skipBlock · true)
  if chosen then modify fun state => { state with openBlocks := state.openBlocks + 1 }

/-- One block fewer is open. -/
def closeBlock : Parsing Unit :=
  modify fun state => { state with openBlocks := state.openBlocks - 1 }

/-- `#else` after the block that was read: skips the other one. -/
def otherwise : Parsing Unit := do
  if (← get).openBlocks = 0 then throw .strayElse
  else
    eat
    let _ ← onSupply (Supply.skipBlock · false)
    closeBlock

/-- `#endif`. -/
def endIf : Parsing Unit := do
  if (← get).openBlocks = 0 then throw .strayEndIf
  else
    eat
    closeBlock

/-- Carries out a directive that stands at `place`. -/
def directive (env : Environment) (place : Position) : Directive → Parsing Unit
  | .includeScript => includeScript env
  | .includeBytes => includeBytes env place
  | .define => define env
  | .undefine => undefine env
  | .ifDefined => conditional env true
  | .ifUndefined => conditional env false
  | .otherwise => otherwise
  | .endIf => endIf

end CartScript.Parsing
