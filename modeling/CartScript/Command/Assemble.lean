import CartScript.Command.Arguments
import CartScript.Command.Outcome
import CartScript.Image.File
import CartScript.Job

/-!
# The assembler as a command
-/

namespace CartScript.Command.Assemble

def tool : String := "easm"

def specs : List OptionSpec :=
  [{ letter := 'r', name := "raws" }, { name := "ext" }, { letter := 'o', name := "output" },
    { letter := 'D', name := "define", repeats := true },
    { letter := 'I', name := "include", repeats := true }, { letter := 'c', name := "config" },
    { letter := 'e', name := "engine" }, { name := "origin" },
    { letter := 'l', name := "log-level" }]

structure Request where
  source : Path
  image : Path
  raws : Path
  extension : String
  output : Option Path
  defines : List (String × Int64)
  includeDirs : List Path
  config : Option Path
  engine : Option Engine
  origin : Int64
  level : Level
  deriving Repr, DecidableEq

/-- A definition in advance. -/
def define (text : String) : Except UsageFault (String × Int64) :=
  match Number.parseDefine text with
  | .ok pair => .ok pair
  | .error _ => .error (.invalidValue "define" text)

/-- Reads the arguments. -/
def parse (args : List String) : Except UsageFault Request := do
  let a ← Arguments.sort specs args {}
  let (source, image) ← a.pair "source" "rom"
  let some raws ← a.path? "raws" | .error (.missingArgument "raws")
  return {
    source := ← Arguments.path "source" source
    image := ← Arguments.path "rom" image
    raws
    extension := (a.value? "ext").getD "txt"
    output := ← a.path? "output"
    defines := ← (a.values "define").mapM define
    includeDirs := ← (a.values "include").mapM (Arguments.path "include")
    config := ← a.path? "config"
    engine := ← a.read "engine" (fun text => (Engine.parse? text).map some) none
    origin := ← a.read "origin" Number.parse? 0
    level := ← a.read "log-level" Level.parse? .info }

/-- Saves the image, at the output if there is one. -/
def save (request : Request) (file : ImageFile) (tree : FileTree) : Except FileFault FileTree :=
  match request.output with
  | some path => file.saveAs tree path
  | none => .ok (file.save tree)

/-- What an assembly needs, loaded. -/
def prepare (request : Request) (tree : FileTree) :
    Except String (Job.Context × Job.Options × ImageFile) := do
  let registry ← (loadRegistry tree request.raws request.extension).mapError LoadFault.message
  let settings ← loadSettings tree request.config
  let origin ← offsetOf request.origin "origin is out of range"
  let (file, _) ← (ImageFile.openAt tree [] request.image).mapError OpenFault.message
  return ({ registry, settings, tree },
    { includeDirs := request.includeDirs, defines := request.defines, origin,
      engine := request.engine }, file)

/-- Assembles a script into an image file. -/
def run (request : Request) (tree : FileTree) : Outcome :=
  match prepare request tree with
  | .error text => .failed tree text
  | .ok (context, options, file) =>
    let (image, log) := Job.assemble context options (.file request.source) file.image
    let events := logEvents log
    if !log.succeeded then
      { failure := some s!"{request.source}: assembly failed, image not written", events, tree }
    else match save request { file with image } tree with
      | .error fault => { failure := some fault.message, events, tree }
      | .ok tree => { events, tree }

end CartScript.Command.Assemble
