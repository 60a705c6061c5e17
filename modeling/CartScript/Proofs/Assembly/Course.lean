import CartScript.Proofs.Assembly.Placement

/-!
# The course of an assembly

What an assembly finds out about a program before it writes: the trail, the values of names, the
protected bytes, and the places of data.  None of it depends on the log.  The result of either engine
is put in terms of it: the image that was written, and the events to be reported.
-/

namespace CartScript.Assembly

open TwoPass (Slot Content)
open OnePass (Chunk OpenAssertion State)

/-! ## Steps at the end and what they report -/

/-- The bytes that a statement protects. -/
def ProtectionRequest.resolve (symbols : Symbols) (base : UInt32) (request : ProtectionRequest) :
    Except AssembleFault Protection :=
  Protection.resolve request.start request.stop request.here symbols base

theorem protections_eq (symbols : Symbols) (base : UInt32) (requests : List ProtectionRequest)
    (r : Report) :
    protections symbols base requests r =
      (requests.filterMap fun request => (request.resolve symbols base).toOption,
        r.recordAll (requests.flatMap fun request =>
          Event.ofOutcome request.position (request.resolve symbols base))) := by
  induction requests generalizing r with
  | nil => rfl
  | cons request requests ih =>
    rw [protections, ← ProtectionRequest.resolve]
    -- One request is either a protection or a fault.
    cases hresolve : request.resolve symbols base with
    | ok protection => simp [ih, hresolve, Event.ofOutcome, Except.toOption]
    | error fault => simp [ih, hresolve, Event.ofOutcome, Except.toOption, Report.record]

namespace PlacedField

/-- The patches of the fields that can be resolved. -/
def patches (symbols : Symbols) (here base : UInt32) (fields : List PlacedField) : List Patch :=
  fields.filterMap fun f => (f.resolve symbols here base).toOption

/-- What is reported of resolving fields. -/
def events (symbols : Symbols) (position : Position) (here base : UInt32)
    (fields : List PlacedField) : List Event :=
  fields.flatMap fun f => Event.ofOutcome position (f.resolve symbols here base)

theorem resolveAll_eq (symbols : Symbols) (position : Position) (here base : UInt32)
    (fields : List PlacedField) (r : Report) :
    resolveAll symbols position here base fields r =
      (patches symbols here base fields, r.recordAll (events symbols position here base fields)) := by
  induction fields generalizing r with
  | nil => rfl
  | cons f fields ih =>
    rw [resolveAll]
    cases hresolve : f.resolve symbols here base with
    | ok patch => simp [ih, patches, events, hresolve, Event.ofOutcome, Except.toOption]
    | error fault =>
      simp [ih, patches, events, hresolve, Event.ofOutcome, Except.toOption, Report.record]

end PlacedField

/-- The image after an attempt to write bytes. -/
def commit (protections : List Protection) (span : Span) (patches : List Patch) (image : Image) :
    Image :=
  match checkWrite span image.size protections with
  | .ok () => image.overwrite span.offset.toNat (Patch.render span.size patches)
  | .error _ => image

@[simp]
theorem size_commit (protections : List Protection) (span : Span) (patches : List Patch)
    (image : Image) : (commit protections span patches image).size = image.size := by
  unfold commit
  split
  · exact Image.size_overwrite ..
  · rfl

theorem Writing.write_eq (w : Writing) (position : Position) (span : Span) (patches : List Patch)
    (protections : List Protection) :
    w.write position span patches protections =
      { image := commit protections span patches w.image
        report := w.report.recordAll
          (Event.ofOutcome position (checkWrite span w.image.size protections)) } := by
  unfold write commit
  cases checkWrite span w.image.size protections <;> rfl

namespace InlineBlock

/-- What is reported of writing a block. -/
def events (symbols : Symbols) (block : InlineBlock) : List Event :=
  match block.offset with
  | none => []
  | some offset =>
    Event.ofOutcome block.position (block.data.inlineBytes block.element offset symbols)

/-- The image after an attempt to write a block. -/
def write (symbols : Symbols) (image : Image) (block : InlineBlock) : Image :=
  match block.offset with
  | none => image
  | some offset =>
    match block.data.inlineBytes block.element offset symbols with
    | .ok bytes => image.overwrite offset.toNat bytes
    | .error _ => image

end InlineBlock

theorem Writing.foldl_writeBlock_eq (symbols : Symbols) (blocks : List InlineBlock) (w : Writing) :
    blocks.foldl (writeBlock symbols) w =
      { image := blocks.foldl (InlineBlock.write symbols) w.image
        report := w.report.recordAll (blocks.flatMap (InlineBlock.events symbols)) } := by
  induction blocks generalizing w with
  | nil => rfl
  | cons block blocks ih =>
    have hblock : writeBlock symbols w block =
        { image := block.write symbols w.image
          report := w.report.recordAll (block.events symbols) } := by
      -- A block without an offset was reported when it got no place.
      unfold writeBlock InlineBlock.write InlineBlock.events
      cases block.offset with
      | none => rfl
      | some offset =>
        cases hbytes : block.data.inlineBytes block.element offset symbols <;> simp only [hbytes] <;>
          rfl
    rw [List.foldl_cons, hblock, ih, List.foldl_cons, List.flatMap_cons, Report.recordAll_append]

/-- The image and the log at the end: a failure leaves the image as it was. -/
def conclude (image : Image) (log : Log) (written : Image) (events : List Event) : Image × Log :=
  Writing.finish { image := written, report := ({ log } : Report).recordAll events } image
    log.errorCount

theorem failsSince_conclude {image : Image} {log : Log} {written : Image} {events : List Event} :
    log.FailsSince (conclude image log written events).2 ↔
      ∃ e ∈ events, log.isFailure e.severity = true := by
  rw [← Report.errorCount_lt_recordAll_iff]
  exact Log.failsSince_iff (Report.extends_recordAll log events)

/-! ## What items report -/

namespace Passage

/-- What is reported of an assertion or a message once all names are known. -/
def spoken (symbols : Symbols) (p : Passage) : List Event :=
  match p.slot.statement.value with
  | .assertion condition =>
    Event.ofOutcome p.position ((symbols.resolve condition p.slot.here).bind checkAssertion)
  | .report severity text => [.note severity p.position text]
  | _ => []

/-- What is reported of an assertion that was left open. -/
def spokenLater (symbols : Symbols) (p : Passage) : List Event :=
  p.openAssertion?.toList.flatMap fun a =>
    Event.ofOutcome a.position ((symbols.resolve a.condition a.here).bind checkAssertion)

end Passage

namespace Item

variable (context : Context) (symbols : Symbols) (protections : List Protection)

/-- What is reported of whether the bytes of an item may be written. -/
def checked (size : Nat) (item : Item) : List Event :=
  item.piece.toList.flatMap fun piece =>
    Event.ofOutcome item.passage.position (checkWrite piece.span size protections)

/-- What the two-pass engine reports in its second pass. -/
def emitted (size : Nat) (item : Item) : List Event :=
  item.passage.spoken symbols ++
    match item.piece, item.passage.misfit? context.registry with
    | some piece, _ =>
      item.passage.alignment context.registry piece.span ++
        PlacedField.events symbols item.passage.position piece.span.offset context.pointerBase
          piece.fields ++
        item.checked protections size
    | none, some (span, fault) =>
      item.passage.alignment context.registry span ++ [.fault item.passage.position fault]
    | none, none => []

/-- What the one-pass engine reports of the fields that it left open. -/
def filled (item : Item) : List Event :=
  (item.chunk? context).toList.flatMap fun chunk =>
    PlacedField.events symbols chunk.position chunk.span.offset context.pointerBase chunk.fields

/-- The image after the second pass of the two-pass engine over an item. -/
def write (image : Image) (item : Item) : Image :=
  match item.piece with
  | none => image
  | some piece => commit protections piece.span (piece.layout.fixed ++
      PlacedField.patches symbols piece.span.offset context.pointerBase piece.fields) image

/-- The image after the one-pass engine writes the chunk of an item. -/
def writeChunk (image : Image) (item : Item) : Image :=
  match item.chunk? context with
  | none => image
  | some chunk => commit protections chunk.span (chunk.patches ++
      PlacedField.patches symbols chunk.span.offset context.pointerBase chunk.fields) image

@[simp]
theorem size_write (image : Image) (item : Item) :
    (item.write context symbols protections image).size = image.size := by
  unfold write
  split
  · rfl
  · exact size_commit ..

theorem emit_content (w : Writing) (item : Item) :
    TwoPass.emit context symbols protections w (item.content context.registry) =
      { image := item.write context symbols protections w.image
        report := w.report.recordAll (item.emitted context symbols protections w.image.size) } := by
  have hspeak : TwoPass.speak symbols w.report item.passage.slot =
      w.report.recordAll (item.passage.spoken symbols) := by
    unfold TwoPass.speak Passage.spoken
    cases item.passage.slot.statement.value with
    | assertion condition => exact Report.outcome_eq_recordAll ..
    | _ => rfl
  obtain ⟨passage, _ | piece⟩ := item
  · -- Without a piece, the statement writes nothing, or its arguments do not fit.
    rcases hmisfit : passage.misfit? context.registry with _ | ⟨span, fault⟩
    · simp only [TwoPass.emit, content, hspeak, write, emitted, hmisfit, List.append_nil]
    · simp only [TwoPass.emit, content, hspeak, write, emitted, hmisfit, OnePass.warnAlignment_eq,
        Report.recordAll_append]
      rfl
  · simp only [TwoPass.emit, content, hspeak, write, emitted, checked, Option.toList_some,
      List.flatMap_singleton, OnePass.warnAlignment_eq, PlacedField.resolveAll_eq, Writing.write_eq,
      Report.recordAll_append]
    rfl

theorem foldl_emit_content (items : List Item) (w : Writing) :
    (items.map (content context.registry)).foldl (TwoPass.emit context symbols protections) w =
      { image := items.foldl (write context symbols protections) w.image
        report := w.report.recordAll
          (items.flatMap (emitted context symbols protections w.image.size)) } := by
  induction items generalizing w with
  | nil => rfl
  | cons item items ih =>
    rw [List.map_cons, List.foldl_cons, emit_content, ih, List.foldl_cons, List.flatMap_cons,
      Report.recordAll_append]
    simp only [size_write]

end Item

/-! ## The course -/

/-- What an assembly finds out before it writes. -/
structure Course where
  trail : List Passage
  /-- The names with their final values. -/
  symbols : Symbols
  protections : List Protection
  items : List Item
  /-- The data in free space. -/
  blocks : List InlineBlock
  /-- What is reported of constants that wait, of protections, and of places for data. -/
  preparing : List Event
  deriving Repr, DecidableEq, Inhabited

namespace Course

/-- The course of an assembly that keeps data off the bytes of statements as far as `span?` tells
    them. -/
def along (span? : Passage → Option Span) (program : Program) (context : Context) (image : Image) :
    Course :=
  let start := Walk.start context image {}
  let trail := start.trail context.registry program
  let walked := start.passAll context.registry program
  let symbols := walked.settle.symbols
  let requests := trail.filterMap fun p => p.slot.protection?
  let resolve := ProtectionRequest.resolve symbols context.pointerBase
  let protections := requests.filterMap fun request => (resolve request).toOption
  let free := Placing.start context image { log := {} } (trail.filterMap span?) protections
  { trail, symbols, protections
    items := (placeTrail context.registry trail free).1
    blocks := (placeTrail context.registry trail free).2.blocks.toList
    preparing := walked.settleEvents ++
      (requests.flatMap fun request => Event.ofOutcome request.position (resolve request)) ++
      placeTrailEvents context.registry trail free }

variable (c : Course) (context : Context)

/-- What the two-pass engine reports. -/
def twoPassEvents (size : Nat) : List Event :=
  (c.trail.flatMap fun p => p.naming ++ p.moving) ++ c.preparing ++
    c.items.flatMap (Item.emitted context c.symbols c.protections size) ++
    c.blocks.flatMap (InlineBlock.events c.symbols)

/-- What the one-pass engine reports. -/
def onePassEvents (size : Nat) : List Event :=
  c.trail.flatMap (Passage.reportedNow context) ++ c.preparing ++
    c.items.flatMap (Item.filled context c.symbols) ++
    c.trail.flatMap (Passage.spokenLater c.symbols) ++
    c.items.flatMap (Item.checked c.protections size) ++
    c.blocks.flatMap (InlineBlock.events c.symbols)

/-- The image that the two-pass engine writes. -/
def twoPassImage (image : Image) : Image :=
  c.blocks.foldl (InlineBlock.write c.symbols)
    (c.items.foldl (Item.write context c.symbols c.protections) image)

/-- The image that the one-pass engine writes. -/
def onePassImage (image : Image) : Image :=
  c.blocks.foldl (InlineBlock.write c.symbols)
    (c.items.foldl (Item.writeChunk context c.symbols c.protections) image)

end Course

theorem Placing.start_eq_withReport (context : Context) (image : Image) (r r' : Report)
    (spans : List Span) (protections : List Protection) :
    Placing.start context image r spans protections =
      (Placing.start context image r' spans protections).withReport r := rfl

/-! ## The engines -/

/-- The result of the two-pass engine. -/
theorem TwoPass.assemble_eq (program : Program) (context : Context) (image : Image) (log : Log) :
    let course := Course.along (fun p => p.slot.span) program context image
    TwoPass.assemble program context image log =
      conclude image log (course.twoPassImage context image)
        (course.twoPassEvents context image.size) := by
  have hstart : Walk.start context image log = (Walk.start context image {}).withReport { log } := rfl
  -- Both passes in terms of the trail from a log without entries, whatever the log is.
  simp only [assemble, layOut_eq, hstart, Walk.trail_withReport, Walk.passAll_withReport,
    Walk.settle_withReport, Walk.withReport_symbols, Walk.withReport_report, protections_eq,
    List.filterMap_map, Course.along]
  generalize (Walk.start context image {}).trail context.registry program = trail
  generalize (Walk.start context image {}).passAll context.registry program = walked
  -- What was reported before the places are sought does not matter for them.
  rw [Placing.start_eq_withReport context image _ { log := {} }, placeAll_eq, placeTrail_withReport]
  simp only [Item.foldl_emit_content, ← Array.foldl_toList, Writing.foldl_writeBlock_eq,
    Placing.withReport_report, Placing.withReport_blocks, ← Report.recordAll_append, conclude,
    Course.twoPassImage, Course.twoPassEvents, List.append_assoc]
  rfl

namespace OnePass

/-- A chunk once its open fields are filled in. -/
def fill (symbols : Symbols) (base : UInt32) (chunk : Chunk PlacedField) : Chunk PlacedField :=
  { chunk with
    patches := chunk.patches ++ PlacedField.patches symbols chunk.span.offset base chunk.fields
    fields := [] }

/-- What is left to do for chunks: their open fields are filled in. -/
theorem fillOpen_eq (symbols : Symbols) (base : UInt32) (chunks : List (Chunk PlacedField))
    (r : Report) :
    fillOpen symbols base chunks r =
      (chunks.map (fill symbols base),
        r.recordAll (chunks.flatMap fun chunk =>
          PlacedField.events symbols chunk.position chunk.span.offset base chunk.fields)) := by
  induction chunks generalizing r with
  | nil => rfl
  | cons chunk chunks ih =>
    simp only [fillOpen, PlacedField.resolveAll_eq, ih, List.map_cons, List.flatMap_cons,
      Report.recordAll_append]
    rfl

theorem foldl_checkOpen_eq (symbols : Symbols) (assertions : List OpenAssertion) (r : Report) :
    assertions.foldl (checkOpen symbols) r = r.recordAll (assertions.flatMap fun a =>
      Event.ofOutcome a.position ((symbols.resolve a.condition a.here).bind checkAssertion)) := by
  induction assertions generalizing r with
  | nil => rfl
  | cons a assertions ih =>
    rw [List.foldl_cons, ih, checkOpen, Report.outcome_eq_recordAll, List.flatMap_cons,
      Report.recordAll_append]

/-- The chunks of items are written. -/
theorem foldl_write_eq (context : Context) (symbols : Symbols) (protections : List Protection)
    (items : List Item) (w : Writing) :
    ((items.filterMap (Item.chunk? context)).map (fill symbols context.pointerBase)).foldl
        (fun w chunk => w.write chunk.position chunk.span chunk.patches protections) w =
      { image := items.foldl (Item.writeChunk context symbols protections) w.image
        report := w.report.recordAll (items.flatMap (Item.checked protections w.image.size)) } := by
  induction items generalizing w with
  | nil => rfl
  | cons item items ih =>
    obtain ⟨passage, _ | piece⟩ := item
    · simp only [List.filterMap_cons, Item.chunk?, Option.map_none] at ih ⊢
      rw [ih]
      simp [Item.writeChunk, Item.chunk?, Item.checked]
    · simp only [List.filterMap_cons, Item.chunk?, Option.map_some, List.map_cons,
        List.foldl_cons] at ih ⊢
      rw [ih, Writing.write_eq]
      -- Whether a chunk may be written does not depend on what was written before it: the size of
      -- the image stays.
      simp [Item.writeChunk, Item.chunk?, Item.checked, fill, Report.recordAll_append]

end OnePass

/-- A selection that is gone through is gone through in the original list. -/
theorem flatMap_filterMap {α β γ : Type} (f : α → Option β) (g : β → List γ) (l : List α) :
    (l.filterMap f).flatMap g = l.flatMap fun a => (f a).toList.flatMap g := by
  induction l with
  | nil => rfl
  | cons a l ih =>
    rw [List.filterMap_cons, List.flatMap_cons, ← ih]
    cases f a <;> simp

/-- The spans of the chunks are those of the statements whose arguments fit. -/
theorem map_span_filterMap_chunk? (context : Context) (trail : List Passage) :
    (trail.filterMap (Passage.chunk? context)).map Chunk.span =
      trail.filterMap fun p => (p.writes? context.registry).map Prod.fst := by
  rw [List.map_filterMap]
  refine List.filterMap_congr fun p _ => ?_
  rw [Passage.chunk?, Option.map_map]
  rfl

/-- The result of the one-pass engine. -/
theorem OnePass.assemble_eq (program : Program) (context : Context) (image : Image) (log : Log) :
    let course := Course.along (fun p => (p.writes? context.registry).map Prod.fst) program context
      image
    OnePass.assemble program context image log =
      conclude image log (course.onePassImage context image)
        (course.onePassEvents context image.size) := by
  have hstart : Walk.start context image log = (Walk.start context image {}).withReport { log } := rfl
  -- The loop over the program, in terms of the trail.
  obtain ⟨hwalk, hchunks, hassertions, hprotections⟩ :=
    foldl_step_eq context program { walk := Walk.start context image log }
  simp only [hstart, Walk.trail_withReport, Walk.passAll_withReport, Walk.withReport_withReport,
    Walk.withReport_report, List.nil_append] at hwalk hchunks hassertions hprotections
  simp only [assemble, hstart, hwalk, hchunks, hprotections, ← Array.foldl_toList, hassertions,
    Walk.settle_withReport, Walk.withReport_symbols, Walk.withReport_report, protections_eq,
    map_span_filterMap_chunk?, Course.along]
  generalize (Walk.start context image {}).trail context.registry program = trail
  generalize (Walk.start context image {}).passAll context.registry program = walked
  rw [Placing.start_eq_withReport context image _ { log := {} }, placeAll_eq, placeTrail_withReport]
  simp only [fillOpen_eq, foldl_checkOpen_eq, foldl_write_eq, Writing.foldl_writeBlock_eq,
    Placing.withReport_report, Placing.withReport_blocks, ← Report.recordAll_append,
    flatMap_filterMap, conclude, Course.onePassImage, Course.onePassEvents, List.append_assoc]
  rfl

end CartScript.Assembly

namespace CartScript.Engine

open Assembly

/-- The course of an assembly.  The one-pass engine does not know of the bytes of a statement whose
    arguments do not fit. -/
def course (engine : Engine) (program : Program) (context : Assembly.Context) (image : Image) :
    Course :=
  match engine with
  | .twoPass => Course.along (fun p => p.slot.span) program context image
  | .onePass =>
    Course.along (fun p => (p.writes? context.registry).map Prod.fst) program context image

/-- All that an engine reports, repeats of undefined symbols included. -/
def events (engine : Engine) (program : Program) (context : Assembly.Context) (image : Image) :
    List Event :=
  match engine with
  | .twoPass => (twoPass.course program context image).twoPassEvents context image.size
  | .onePass => (onePass.course program context image).onePassEvents context image.size

/-- The image that an engine writes, before it is decided whether that counts. -/
def written (engine : Engine) (program : Program) (context : Assembly.Context) (image : Image) :
    Image :=
  match engine with
  | .twoPass => (twoPass.course program context image).twoPassImage context image
  | .onePass => (onePass.course program context image).onePassImage context image

/-- An engine reports its events, and what it has written counts only if none of them fails. -/
theorem assemble_eq_conclude (engine : Engine) (program : Program) (context : Assembly.Context)
    (image : Image) (log : Log) :
    engine.assemble program context image log =
      conclude image log (engine.written program context image)
        (engine.events program context image) := by
  cases engine with
  | twoPass => exact TwoPass.assemble_eq program context image log
  | onePass => exact OnePass.assemble_eq program context image log

end CartScript.Engine
