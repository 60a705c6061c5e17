import CartScript.Listing.Render
import CartScript.Script.Parse
import CartScript.Settings

/-!
# Whole jobs

A job works on an image: `Job.assemble` puts a script into it, `Job.disassemble` lists what stands in
it.  Either identifies the game of the image first, and reports all that went wrong in its log.
-/

namespace CartScript.Job

/-- What a job refers to. -/
structure Context where
  registry : Registry := {}
  settings : Settings := {}
  tree : FileTree := {}
  deriving Repr, DecidableEq, Inhabited

/-- The script of a job: text in memory, or a file. -/
inductive Source where
  | text (name : String) (content : List UInt8)
  | file (path : Path)
  deriving Repr, DecidableEq, Inhabited

/-- The options of one assembly. -/
structure Options where
  includeDirs : List Path := []
  /-- Names that are defined before the script is read. -/
  defines : List (String × Int64) := []
  origin : UInt32 := 0
  /-- The engine, if not the one of the settings. -/
  engine : Option Engine := none
  deriving Repr, DecidableEq, Inhabited

/-- The log of a job that starts. -/
def Context.log (c : Context) : Log := { warningsAreErrors := c.settings.warningsAreErrors }

def Source.load (tree : FileTree) : Source → Except ParseFault Script
  | .text name content => .ok { name, content }
  | .file path => Script.ofFile tree path

/-- What the script of an assembly may refer to. -/
def Context.environment (c : Context) (options : Options) (game : Game) : Environment :=
  { registry := c.registry, game := game.name, tree := c.tree, includeDirs := options.includeDirs }

/-- What an assembly refers to. -/
def Context.assembly (c : Context) (options : Options) : Assembly.Context :=
  { registry := c.registry, pointerBase := c.settings.pointerBase,
    freeSpace := c.settings.freeSpace, origin := options.origin }

/-- The engine of an assembly. -/
def Context.engine (c : Context) (options : Options) : Engine :=
  options.engine.getD c.settings.engine

/-- Assembles a script that could be read. -/
def assembleScript (c : Context) (options : Options) (game : Game) (script : Script) (image : Image)
    (log : Log) : Image × Log :=
  let parsed := script.parse (c.environment options game) options.defines
  let log := log.extend parsed.diagnostics
  match parsed.outcome with
  | .error _ => (image, log)
  | .ok program =>
    if !log.succeeded then (image, log)
    else (c.engine options).assemble program (c.assembly options) image log

/-- Assembles a script into an image, which stays as it is if anything fails. -/
def assemble (c : Context) (options : Options) (source : Source) (image : Image) : Image × Log :=
  match Game.identify image c.settings.gameTable with
  | .error fault => (image, c.log.error .none fault.message)
  | .ok game =>
    match source.load c.tree with
    | .error fault => (image, c.log.error .none fault.message)
    | .ok script => assembleScript c options game script image c.log

/-- Lists what stands in an image. -/
def disassemble (c : Context) (request : Listing.Request) (image : Image) : String × Log :=
  match Game.identify image c.settings.gameTable with
  | .error fault => ("", c.log.error .none fault.message)
  | .ok game =>
    let target : Listing.Target :=
      { image, codes := c.registry.forGame game.name, pointerBase := c.settings.pointerBase }
    Listing.disassemble target request c.log

end CartScript.Job
