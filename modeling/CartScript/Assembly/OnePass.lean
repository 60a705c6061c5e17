import CartScript.Assembly.Steps

/-!
# The one-pass engine

Statements are turned into bytes as they come.  Fields whose values are not known yet are left open,
and filled in when all names are known.
-/

namespace CartScript.Assembly.OnePass

/-- The bytes of a statement, some fields of which may be open. -/
structure Chunk (α : Type) where
  position : Position
  span : Span
  patches : List Patch
  /-- The fields that are open. -/
  fields : List α
  deriving Repr, DecidableEq, Inhabited

/-- An assertion whose value is not known yet. -/
structure OpenAssertion where
  position : Position
  here : UInt32
  condition : Expr
  deriving Repr, DecidableEq, Inhabited

structure State where
  walk : Walk
  chunks : Array (Chunk Field) := #[]
  assertions : Array OpenAssertion := #[]
  protections : Array ProtectionRequest := #[]
  deriving Repr, DecidableEq, Inhabited

/-- Changes the report. -/
def State.mapReport (s : State) (change : Report → Report) : State :=
  { s with walk := { s.walk with report := change s.walk.report } }

/-- The bytes of a field, if its value is known by now. -/
def knownPatch? (symbols : Symbols) (here base : UInt32) (f : Field) :
    Except AssembleFault (Option Patch) :=
  match f.source with
  | .inline _ _ => .ok none
  | .expr value =>
    match value.eval symbols.source here with
    | .ok (.known v) => (f.encode v base).map some
    | .ok (.deferred _) => .ok none
    | .error fault => .error (.eval fault)

/-- Fills in the fields whose values are known: the patches, the fields left open, and the report. -/
def fillKnown (symbols : Symbols) (position : Position) (here base : UInt32) :
    List Field → Report → List Patch × List Field × Report
  | [], report => ([], [], report)
  | f :: rest, report =>
    match knownPatch? symbols here base f with
    | .ok (some patch) =>
      let (patches, fields, report) := fillKnown symbols position here base rest report
      (patch :: patches, fields, report)
    | .ok none =>
      let (patches, fields, report) := fillKnown symbols position here base rest report
      (patches, f :: fields, report)
    | .error fault => fillKnown symbols position here base rest (report.fault position fault)

/-- Checks an assertion or leaves it open, passes on a message, and notes a protection. -/
def speak (s : State) (statement : Located Statement) : State :=
  let position := statement.position
  let here := s.walk.cursor.offset
  match statement.value with
  | .assertion condition =>
    match condition.eval s.walk.symbols.source here with
    | .ok (.known value) => s.mapReport (·.outcome position (checkAssertion value))
    | .ok (.deferred _) => { s with assertions := s.assertions.push { position, here, condition } }
    | .error fault => s.mapReport (·.fault position (.eval fault))
  | .protect start stop =>
    { s with protections := s.protections.push { position, here, start, stop } }
  | .report severity text => s.mapReport (·.push severity position text)
  | _ => s

/-- Turns a statement that writes into a chunk. -/
def emit (context : Context) (s : State) (statement : Located Statement) (span : Span) : State :=
  let position := statement.position
  let s := s.mapReport (warnAlignment · context.registry statement span)
  match Layout.ofStatement statement.value span.size context.registry with
  | .error fault => s.mapReport (·.fault position fault)
  | .ok layout =>
    let (patches, fields, report) := fillKnown s.walk.symbols position span.offset
      context.pointerBase layout.fields s.walk.report
    let chunk : Chunk Field := { position, span, patches := layout.fixed ++ patches, fields }
    { s.mapReport (fun _ => report) with chunks := s.chunks.push chunk }

/-- Works off one statement. -/
def step (context : Context) (s : State) (statement : Located Statement) : State :=
  let entered := speak { s with walk := s.walk.enter statement } statement
  let (span, walk) := entered.walk.move context.registry statement
  match span with
  | none => { entered with walk }
  | some span => emit context { entered with walk } statement span

/-- Finds places for the data of open fields. -/
def placeAll : List (Chunk Field) → Placing → List (Chunk PlacedField) × Placing
  | [], p => ([], p)
  | chunk :: chunks, p =>
    let (fields, p) := Placing.fields chunk.position chunk.fields p
    let (rest, p) := placeAll chunks p
    ({ chunk with fields } :: rest, p)

/-- Fills in the open fields of chunks. -/
def fillOpen (symbols : Symbols) (base : UInt32) :
    List (Chunk PlacedField) → Report → List (Chunk PlacedField) × Report
  | [], report => ([], report)
  | chunk :: chunks, report =>
    let (patches, report) :=
      PlacedField.resolveAll symbols chunk.position chunk.span.offset base chunk.fields report
    let (rest, report) := fillOpen symbols base chunks report
    ({ chunk with patches := chunk.patches ++ patches, fields := [] } :: rest, report)

/-- Checks an assertion once all names are known. -/
def checkOpen (symbols : Symbols) (report : Report) (a : OpenAssertion) : Report :=
  report.outcome a.position ((symbols.resolve a.condition a.here).bind checkAssertion)

/-- Assembles a program into an image. -/
def assemble (program : Program) (context : Context) (image : Image) (log : Log) : Image × Log :=
  let state := program.foldl (step context) { walk := .start context image log }
  let settled := state.walk.settle
  let symbols := settled.symbols
  let (protections, report) := protections symbols context.pointerBase
    state.protections.toList settled.report
  let chunks := state.chunks.toList
  let (placedChunks, placed) := placeAll chunks
    (.start context image report (chunks.map Chunk.span) protections)
  let (filled, report) := fillOpen symbols context.pointerBase placedChunks placed.report
  let report := state.assertions.foldl (checkOpen symbols) report
  let written := filled.foldl
    (fun (w : Writing) chunk => w.write chunk.position chunk.span chunk.patches protections)
    { image, report }
  let final := placed.blocks.foldl (Writing.writeBlock symbols) written
  final.finish image log.errorCount

end CartScript.Assembly.OnePass
