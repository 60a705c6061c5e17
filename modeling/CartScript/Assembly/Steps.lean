import CartScript.Assembly.Layout
import CartScript.Assembly.Report

/-!
# Steps of an assembly

What all engines do alike: naming offsets and values, checking, placing data in free space, and
writing it.
-/

namespace CartScript.Assembly

/-- What an assembly refers to besides the program and the image. -/
structure Context where
  registry : Registry := {}
  pointerBase : UInt32 := 0x08000000
  freeSpace : FreeSpacePolicy := {}
  /-- Where the first statement writes. -/
  origin : UInt32 := 0
  deriving Repr, DecidableEq, Inhabited

/-! ## Walking through the program -/

/-- A walk through the statements of a program. -/
structure Walk where
  symbols : Symbols := {}
  cursor : Cursor
  /-- The constants whose values are not known yet. -/
  waiting : Array WaitingConstant := #[]
  report : Report
  deriving Repr, DecidableEq, Inhabited

namespace Walk

/-- The start of a walk. -/
def start (context : Context) (image : Image) (log : Log) : Walk :=
  { cursor := { offset := context.origin, base := context.pointerBase, limit := image.size }
    report := { log } }

/-- Gives a name its value. -/
def declare (w : Walk) (position : Position) (name : String) (value : Int64) : Walk :=
  match w.symbols.declare name value with
  | .ok symbols => { w with symbols }
  | .error fault => { w with report := w.report.fault position fault }

/-- Gives the name of a label or a constant its value, or lets a constant wait. -/
def name (w : Walk) (statement : Located Statement) : Walk :=
  let here := w.cursor.offset
  match statement.value with
  | .label name => w.declare statement.position name (Int64.ofNat here.toNat)
  | .constant name value =>
    match value.eval w.symbols.source here with
    | .ok (.known v) => w.declare statement.position name v
    | .ok (.deferred _) =>
      { w with waiting := w.waiting.push { name, value, here, position := statement.position } }
    | .error fault => { w with report := w.report.fault statement.position (.eval fault) }
  | _ => w

/-- Notes the names that a statement uses and names. -/
def enter (w : Walk) (statement : Located Statement) : Walk :=
  name { w with symbols := w.symbols.noteUses statement } statement

/-- Moves past a statement. -/
def move (w : Walk) (registry : Registry) (statement : Located Statement) : Option Span × Walk :=
  match w.cursor.step statement.value registry w.symbols.source with
  | .ok (span, cursor) => (span, { w with cursor })
  | .error fault => (none, { w with report := w.report.fault statement.position fault })

/-- Settles the constants that wait. -/
def settle (w : Walk) : Walk :=
  let (symbols, complaints) := w.symbols.settle w.waiting.toList
  { w with symbols, waiting := #[], report := w.report.faults complaints }

end Walk

/-! ## Checks -/

/-- A negative value fails. -/
def checkAssertion (value : Int64) : Except AssembleFault Unit :=
  if value < 0 then .error .assertionFailed else .ok ()

/-- What is said of a code that is placed off its alignment. -/
def alignmentWarning? (registry : Registry) (statement : Statement) (offset : UInt32) :
    Option String :=
  match statement with
  | .code index _ => do
    let code ← registry.at? index
    guard (1 < code.align.toNat ∧ offset.toNat % code.align.toNat ≠ 0)
    return s!"code \"{code.name}\" at {renderOffset offset} is not aligned to {code.align} bytes"
  | _ => none

/-- Warns of a code that is placed off its alignment. -/
def warnAlignment (report : Report) (registry : Registry) (statement : Located Statement)
    (span : Span) : Report :=
  match alignmentWarning? registry statement.value span.offset with
  | some text => report.push .warning statement.position text
  | none => report

/-- Bytes that must not be written. -/
structure Protection where
  start : UInt32
  stop : UInt32
  deriving Repr, DecidableEq, Inhabited

namespace Protection

def interval (p : Protection) : Interval := ⟨p.start.toNat, p.stop.toNat⟩

/-- The bytes that a statement protects.  A single address protects four bytes. -/
def resolve (start : Expr) (stop : Option Expr) (here : UInt32) (symbols : Symbols)
    (base : UInt32) : Except AssembleFault Protection := do
  let first ← toOffset (← symbols.resolve start here) base
  let last ← match stop with
    | some stop => toOffset (← symbols.resolve stop here) base
    | none => .ok (UInt32.ofNat (min (first.toNat + 4) 0xFFFFFFFF))
  if last < first then .error (.protectReversed first last) else .ok ⟨first, last⟩

end Protection

/-- Whether bytes may be written: they lie in the image and are not protected. -/
def checkWrite (span : Span) (imageSize : Nat) (protections : List Protection) :
    Except AssembleFault Unit :=
  let written := span.interval
  if imageSize < written.stop then .error (.outOfBounds span.offset span.size)
  else match protections.find? fun p =>
      p.start.toNat < written.stop && written.start < p.stop.toNat with
    | some p => .error (.protectedRegion span.offset p.start p.stop)
    | none => .ok ()

/-- A statement that protects bytes, with the offset at which it stands. -/
structure ProtectionRequest where
  position : Position
  here : UInt32
  start : Expr
  stop : Option Expr
  deriving Repr, DecidableEq, Inhabited

/-- The bytes that are protected; what is wrong with a statement is reported. -/
def protections (symbols : Symbols) (base : UInt32) :
    List ProtectionRequest → Report → List Protection × Report
  | [], report => ([], report)
  | request :: requests, report =>
    match Protection.resolve request.start request.stop request.here symbols base with
    | .ok protection =>
      let (rest, report) := protections symbols base requests report
      (protection :: rest, report)
    | .error fault => protections symbols base requests (report.fault request.position fault)

/-! ## Free space -/

/-- Data in free space. -/
structure InlineBlock where
  position : Position
  data : Arg
  element : Nat
  /-- Its place, if there was room. -/
  offset : Option UInt32
  deriving Repr, DecidableEq, Inhabited

/-- A field whose data, if it has some in free space, has its place. -/
structure PlacedField extends Field where
  /-- The offset of the data; zero where there was no room. -/
  address : UInt32 := 0
  deriving Repr, DecidableEq, Inhabited

/-- Free space under distribution. -/
structure Placing where
  allocator : Allocator
  report : Report
  blocks : Array InlineBlock := #[]
  deriving Repr, DecidableEq, Inhabited

namespace Placing

/-- The start of distributing free space: bytes that are written or protected are taken. -/
def start (context : Context) (image : Image) (report : Report) (spans : List Span)
    (protections : List Protection) : Placing :=
  let whole : Allocator := { image, policy := context.freeSpace }
  let unwritten := spans.foldl (fun a span => a.reserve span.interval) whole
  { allocator := protections.foldl (fun a p => a.reserve p.interval) unwritten, report }

/-- Finds a place for data.  Empty data needs none and is at offset zero. -/
def place (p : Placing) (position : Position) (data : Arg) (element : Nat) :
    Option UInt32 × Placing :=
  let size := data.inlineSize element
  let (offset, p) := if size = 0 then (some 0, p)
    else match p.allocator.allocateData size with
      | .ok (offset, allocator) => (some offset, { p with allocator })
      | .error fault => (none, { p with report := p.report.fault position fault })
  (offset, { p with blocks := p.blocks.push { position, data, element, offset } })

/-- Finds places for the data of fields. -/
def fields (position : Position) : List Field → Placing → List PlacedField × Placing
  | [], p => ([], p)
  | f :: rest, p =>
    match f.source with
    | .expr _ =>
      let (placed, p) := fields position rest p
      ({ toField := f } :: placed, p)
    | .inline data element =>
      let (offset, p) := p.place position data element
      let (placed, p) := fields position rest p
      ({ toField := f, address := offset.getD 0 } :: placed, p)

end Placing

/-! ## Writing -/

namespace PlacedField

/-- The bytes of a field, once all names are known. -/
def resolve (f : PlacedField) (symbols : Symbols) (here base : UInt32) :
    Except AssembleFault Patch :=
  match f.source with
  | .expr value =>
    match symbols.resolve value here with
    | .ok v => f.encode v base
    | .error fault => .error fault
  | .inline _ _ => f.encode (Int64.ofNat f.address.toNat) base

/-- The bytes of fields; what is wrong with one is reported. -/
def resolveAll (symbols : Symbols) (position : Position) (here base : UInt32) :
    List PlacedField → Report → List Patch × Report
  | [], report => ([], report)
  | f :: rest, report =>
    match f.resolve symbols here base with
    | .ok patch =>
      let (patches, report) := resolveAll symbols position here base rest report
      (patch :: patches, report)
    | .error fault => resolveAll symbols position here base rest (report.fault position fault)

end PlacedField

/-- An image that is being written. -/
structure Writing where
  image : Image
  report : Report
  deriving Repr, DecidableEq, Inhabited

namespace Writing

/-- Writes the bytes of a statement, if they may be written. -/
def write (w : Writing) (position : Position) (span : Span) (patches : List Patch)
    (protections : List Protection) : Writing :=
  match checkWrite span w.image.size protections with
  | .ok () => { w with image := w.image.overwrite span.offset.toNat (Patch.render span.size patches) }
  | .error fault => { w with report := w.report.fault position fault }

/-- Writes data into free space. -/
def writeBlock (symbols : Symbols) (w : Writing) (block : InlineBlock) : Writing :=
  match block.offset with
  | none => w
  | some offset =>
    match block.data.inlineBytes block.element offset symbols with
    | .ok bytes => { w with image := w.image.overwrite offset.toNat bytes }
    | .error fault => { w with report := w.report.fault block.position fault }

/-- The image and the log at the end.  The image is changed only if nothing failed since the log had
    `before` failures. -/
def finish (w : Writing) (image : Image) (before : Nat) : Image × Log :=
  (if before < w.report.log.errorCount then image else w.image, w.report.log)

end Writing

end CartScript.Assembly
