import CartScript.Command.Arguments
import CartScript.Command.Outcome
import CartScript.Image.File
import CartScript.Job

/-!
# The disassembler as a command
-/

namespace CartScript.Command.Disassemble

def tool : String := "edisasm"

def specs : List OptionSpec :=
  [{ letter := 'r', name := "raws" }, { name := "ext" }, { letter := 'm', name := "mode" },
    { letter := 's', name := "size-limit" }, { letter := 'g', name := "group" },
    { letter := 'o', name := "output" }, { letter := 'c', name := "config" },
    { letter := 'l', name := "log-level" }]

structure Request where
  image : Path
  offset : Int64
  raws : Path
  extension : String
  mode : Listing.Mode
  sizeLimit : Nat
  group : Option String
  output : Option Path
  config : Option Path
  level : Level
  deriving Repr, DecidableEq

/-- A plain number of bytes. -/
def sizeOf? (text : String) : Option Nat :=
  (Digits.read Digits.unsigned64 10 text.toList).toOption.map Int.toNat

/-- Reads the arguments. -/
def parse (args : List String) : Except UsageFault Request := do
  let a ← Arguments.sort specs args {}
  let (image, offset) ← a.pair "rom" "offset"
  let some offset := Number.parse? offset | .error (.invalidValue "offset" offset)
  let some raws ← a.path? "raws" | .error (.missingArgument "raws")
  return {
    image := ← Arguments.path "rom" image
    offset
    raws
    extension := (a.value? "ext").getD "txt"
    mode := ← a.read "mode" Listing.Mode.ofName? .linked
    sizeLimit := ← a.read "size-limit" sizeOf? 0x1000
    group := a.value? "group"
    output := ← a.path? "output"
    config := ← a.path? "config"
    level := ← a.read "log-level" Level.parse? .info }

/-- What a listing needs, loaded. -/
def prepare (request : Request) (tree : FileTree) :
    Except String (Job.Context × Listing.Request × ImageFile) := do
  let registry ← (loadRegistry tree request.raws request.extension).mapError LoadFault.message
  let settings ← loadSettings tree request.config
  let offset ← offsetOf request.offset "offset is out of range"
  let (file, _) ← (ImageFile.openAt tree [] request.image).mapError OpenFault.message
  return ({ registry, settings, tree },
    { offset, mode := request.mode, sizeLimit := request.sizeLimit, group := request.group }, file)

/-- Writes the listing to a file, or prints it. -/
def deliver (request : Request) (tree : FileTree) (text : String) (events : List Event) : Outcome :=
  match request.output with
  | none => { output := text, events, tree }
  | some path =>
    match tree.write path (Utf8.encode text).toArray with
    | .error fault => { failure := some s!"cant open file: {fault.message}", events, tree }
    | .ok tree => { events, tree }

/-- Lists what stands in an image file. -/
def run (request : Request) (tree : FileTree) : Outcome :=
  match prepare request tree with
  | .error text => .failed tree text
  | .ok (context, listing, file) =>
    let (text, log) := Job.disassemble context listing file.image
    let outcome := deliver request tree text (logEvents log)
    if outcome.failure.isNone && !log.succeeded then
      { outcome with failure := some "disassembly finished with errors" }
    else outcome

end CartScript.Command.Disassemble
