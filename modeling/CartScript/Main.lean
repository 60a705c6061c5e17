import CartScript.Command.Assemble
import CartScript.Command.Disassemble

/-!
# The command line

The first argument names the command, `easm` or `edisasm`.  The files and directories that it may
use are named on standard input, one on each line.
-/

namespace CartScript.Command

/-- The place of a file or directory that exists. -/
def routeOf (name : String) : IO Route := do
  let place := toString (← IO.FS.realPath name)
  return (Path.names place).filter (· != "")

/-- Adds a file or directory to a tree. -/
def addNamed (tree : FileTree) (name : String) : IO FileTree := do
  let route ← routeOf name
  match ← (IO.FS.readBinFile name).toBaseIO with
  | .ok content => return tree.addFile route content.data
  | .error (.inappropriateType _ _ _) => return tree.makeDirectories route
  | .error fault => throw fault

/-- The tree of the files and directories that are named on standard input. -/
partial def readTree (input : IO.FS.Stream) (tree : FileTree) : IO FileTree := do
  let line ← input.getLine
  if line.isEmpty then return tree
  let name := (line.dropEndWhile (· == '\n')).toString
  readTree input (← if name.isEmpty then pure tree else addNamed tree name)

/-- Writes the files that a command made or changed. -/
def writeChanges (before after : FileTree) : IO Unit :=
  for (route, entry) in after.entries do
    if before.entry? route != some entry then
      if let .file content := entry then
        IO.FS.writeBinFile route.render ⟨content⟩

/-- Runs a command on the files that are named on standard input. -/
def perform (tool : String) (level : Level) (run : FileTree → Outcome) : IO UInt32 := do
  let workDir ← routeOf "."
  let before ← readTree (← IO.getStdin) (FileTree.makeDirectories { workDir } workDir)
  let outcome := run before
  for event in outcome.shown tool level do
    IO.eprintln event.render
  IO.print outcome.output
  writeChanges before outcome.tree
  return UInt32.ofNat outcome.exitCode

/-- Refuses the arguments of a command. -/
def refuse (message : String) : IO UInt32 := do
  IO.eprintln s!"error: {message}"
  return 2

end CartScript.Command

open CartScript.Command in
def main (args : List String) : IO UInt32 :=
  match args with
  | "easm" :: args =>
    match Assemble.parse args with
    | .ok request => perform Assemble.tool request.level (Assemble.run request)
    | .error fault => refuse fault.message
  | "edisasm" :: args =>
    match Disassemble.parse args with
    | .ok request => perform Disassemble.tool request.level (Disassemble.run request)
    | .error fault => refuse fault.message
  | _ => refuse "the first argument is easm or edisasm"
