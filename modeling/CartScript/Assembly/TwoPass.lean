import CartScript.Assembly.Steps

/-!
# The two-pass engine

The first pass finds the offset of every statement and the value of every name.  Then data is placed
in free space, and the second pass writes the bytes.
-/

namespace CartScript.Assembly.TwoPass

/-- A statement with its place. -/
structure Slot where
  statement : Located Statement
  here : UInt32
  /-- The bytes that it writes. -/
  span : Option Span
  deriving Repr, DecidableEq, Inhabited

/-- The first pass. -/
def layOut (registry : Registry) : Program → Walk → List Slot × Walk
  | [], w => ([], w)
  | statement :: program, w =>
    let (span, moved) := (w.enter statement).move registry statement
    let (slots, final) := layOut registry program moved
    ({ statement, here := w.cursor.offset, span } :: slots, final)

/-- The request of a statement to protect bytes. -/
def Slot.protection? (slot : Slot) : Option ProtectionRequest :=
  match slot.statement.value with
  | .protect start stop =>
    some { position := slot.statement.position, here := slot.here, start, stop }
  | _ => none

/-- What a statement writes, once its data in free space has its place. -/
inductive Content where
  | nothing
  | faulty (span : Span) (fault : AssembleFault)
  | patches (span : Span) (fixed : List Patch) (fields : List PlacedField)
  deriving Repr, DecidableEq, Inhabited

/-- Finds places for the data of statements. -/
def placeAll (registry : Registry) : List Slot → Placing → List (Slot × Content) × Placing
  | [], p => ([], p)
  | slot :: slots, p =>
    let (content, p) : Content × Placing := match slot.span with
      | none => (.nothing, p)
      | some span =>
        match Layout.ofStatement slot.statement.value span.size registry with
        | .error fault => (.faulty span fault, p)
        | .ok layout =>
          let (fields, p) := Placing.fields slot.statement.position layout.fields p
          (.patches span layout.fixed fields, p)
    let (rest, p) := placeAll registry slots p
    ((slot, content) :: rest, p)

/-- Checks an assertion, and passes on the message of a statement. -/
def speak (symbols : Symbols) (report : Report) (slot : Slot) : Report :=
  let position := slot.statement.position
  match slot.statement.value with
  | .assertion condition =>
    report.outcome position ((symbols.resolve condition slot.here).bind checkAssertion)
  | .report severity text => report.push severity position text
  | _ => report

/-- The second pass for one statement. -/
def emit (context : Context) (symbols : Symbols) (protections : List Protection) (w : Writing)
    (item : Slot × Content) : Writing :=
  let (slot, content) := item
  let position := slot.statement.position
  let report := speak symbols w.report slot
  match content with
  | .nothing => { w with report }
  | .faulty span fault =>
    let report := warnAlignment report context.registry slot.statement span
    { w with report := report.fault position fault }
  | .patches span fixed fields =>
    let report := warnAlignment report context.registry slot.statement span
    let (patches, report) :=
      PlacedField.resolveAll symbols position span.offset context.pointerBase fields report
    Writing.write { w with report } position span (fixed ++ patches) protections

/-- Assembles a program into an image. -/
def assemble (program : Program) (context : Context) (image : Image) (log : Log) : Image × Log :=
  let (slots, walked) := layOut context.registry program (.start context image log)
  let settled := walked.settle
  let symbols := settled.symbols
  let (protections, report) := protections symbols context.pointerBase
    (slots.filterMap Slot.protection?) settled.report
  let (contents, placed) := placeAll context.registry slots
    (.start context image report (slots.filterMap Slot.span) protections)
  let written := contents.foldl (emit context symbols protections)
    { image, report := placed.report }
  let final := placed.blocks.foldl (Writing.writeBlock symbols) written
  final.finish image log.errorCount

end CartScript.Assembly.TwoPass
