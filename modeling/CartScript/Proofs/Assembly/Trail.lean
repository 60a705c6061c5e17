import CartScript.Assembly.Engine
import CartScript.Proofs.Assembly.Events
import CartScript.Proofs.Assembly.Fields
import CartScript.Proofs.Symbols

/-!
# The trail of a walk

Both engines walk through a program in the same way; they differ in when they look at what they
pass.  The *trail* of a walk holds what there is to see at each statement.  It does not depend on what has
been reported before.  The first pass of one engine and the only pass of the other are read off it.
-/

namespace CartScript.Assembly

open TwoPass (Slot)
open OnePass (Chunk OpenAssertion State)

/-! ## Steps and what they report -/

namespace Walk

/-- The walk with another report. -/
def withReport (w : Walk) (report : Report) : Walk := { w with report }

@[simp]
theorem withReport_withReport (w : Walk) (r r' : Report) :
    (w.withReport r).withReport r' = w.withReport r' := rfl

theorem withReport_self (w : Walk) : w.withReport w.report = w := rfl

@[simp]
theorem withReport_report (w : Walk) (r : Report) : (w.withReport r).report = r := rfl

@[simp]
theorem withReport_symbols (w : Walk) (r : Report) : (w.withReport r).symbols = w.symbols := rfl

/-- What is reported of giving a name its value. -/
def nameEvents (w : Walk) (statement : Located Statement) : List Event :=
  match statement.value with
  | .label name =>
    Event.ofOutcome statement.position
      (w.symbols.declare name (Int64.ofNat w.cursor.offset.toNat))
  | .constant name value =>
    match value.eval w.symbols.source w.cursor.offset with
    | .ok (.known v) => Event.ofOutcome statement.position (w.symbols.declare name v)
    | .ok (.deferred _) => []
    | .error fault => [.fault statement.position (.eval fault)]
  | _ => []

/-- The walk once the uses of a statement are noted. -/
def noting (w : Walk) (statement : Located Statement) : Walk :=
  { w with symbols := w.symbols.noteUses statement }

/-- What is reported of moving past a statement. -/
def moveEvents (w : Walk) (registry : Registry) (statement : Located Statement) : List Event :=
  Event.ofOutcome statement.position (w.cursor.step statement.value registry w.symbols.source)

/-- What is reported of the constants that wait. -/
def settleEvents (w : Walk) : List Event :=
  (w.symbols.settle w.waiting.toList).2.map fun c => .fault c.position c.value

theorem declare_withReport (w : Walk) (r : Report) (position : Position) (name : String)
    (value : Int64) :
    (w.withReport r).declare position name value = (w.declare position name value).withReport
      (r.recordAll (Event.ofOutcome position (w.symbols.declare name value))) := by
  simp only [declare, withReport]
  cases w.symbols.declare name value <;> rfl

theorem name_withReport (w : Walk) (r : Report) (statement : Located Statement) :
    (w.withReport r).name statement =
      (w.name statement).withReport (r.recordAll (w.nameEvents statement)) := by
  obtain ⟨position, statement⟩ := statement
  cases statement with
  | label name => exact declare_withReport ..
  | constant name value =>
    simp only [Walk.name, nameEvents, withReport]
    -- A fault, a value, or a constant that waits.
    rcases value.eval w.symbols.source w.cursor.offset with _ | (_ | _)
    · rfl
    · exact declare_withReport ..
    · rfl
  | _ => rfl

theorem enter_withReport (w : Walk) (r : Report) (statement : Located Statement) :
    (w.withReport r).enter statement =
      (w.enter statement).withReport (r.recordAll ((w.noting statement).nameEvents statement)) :=
  name_withReport (w.noting statement) r statement

theorem move_withReport (w : Walk) (r : Report) (registry : Registry)
    (statement : Located Statement) :
    (w.withReport r).move registry statement =
      ((w.move registry statement).1, (w.move registry statement).2.withReport
        (r.recordAll (w.moveEvents registry statement))) := by
  simp only [move, moveEvents, withReport]
  cases w.cursor.step statement.value registry w.symbols.source <;> rfl

theorem settle_withReport (w : Walk) (r : Report) :
    (w.withReport r).settle = w.settle.withReport (r.recordAll w.settleEvents) := by
  simp only [settle, withReport, settleEvents, Report.faults_eq_recordAll]

/-! ## What a step leaves alone -/

theorem declare_cursor (w : Walk) (position : Position) (name : String) (value : Int64) :
    (w.declare position name value).cursor = w.cursor := by
  unfold declare
  split <;> rfl

theorem declare_within (w : Walk) (position : Position) (name : String) (value : Int64) :
    w.symbols.source.Within (w.declare position name value).symbols.source := by
  unfold declare
  split
  · rename_i hdeclare
    exact Symbols.declare_within hdeclare
  · exact .refl _

theorem name_cursor (w : Walk) (statement : Located Statement) :
    (w.name statement).cursor = w.cursor := by
  simp only [name]
  split
  · exact declare_cursor ..
  · split
    · exact declare_cursor ..
    · rfl
    · rfl
  · rfl

theorem name_within (w : Walk) (statement : Located Statement) :
    w.symbols.source.Within (w.name statement).symbols.source := by
  simp only [name]
  split
  · apply declare_within
  · split
    · apply declare_within
    · exact .refl _
    · exact .refl _
  · exact .refl _

@[simp]
theorem enter_cursor (w : Walk) (statement : Located Statement) :
    (w.enter statement).cursor = w.cursor := name_cursor (w.noting statement) statement

theorem enter_within (w : Walk) (statement : Located Statement) :
    w.symbols.source.Within (w.enter statement).symbols.source := by
  rw [← Symbols.source_noteUses w.symbols statement]
  exact name_within (w.noting statement) statement

@[simp]
theorem move_symbols (w : Walk) (registry : Registry) (statement : Located Statement) :
    (w.move registry statement).2.symbols = w.symbols := by
  unfold move
  split <;> rfl

/-- The walk past a statement. -/
def pass (registry : Registry) (w : Walk) (statement : Located Statement) : Walk :=
  ((w.enter statement).move registry statement).2

theorem pass_within (registry : Registry) (w : Walk) (statement : Located Statement) :
    w.symbols.source.Within (w.pass registry statement).symbols.source := by
  rw [pass, move_symbols]
  exact enter_within w statement

end Walk

/-! ## The trail -/

/-- What there is to see at a statement. -/
structure Passage where
  slot : Slot
  /-- The names known once the statement's own one is. -/
  symbols : Symbols
  /-- What is reported of its name. -/
  naming : List Event
  /-- What is reported of moving past it. -/
  moving : List Event
  deriving Repr, DecidableEq, Inhabited

namespace Walk

variable (registry : Registry)

/-- What there is to see at a statement. -/
def passage (w : Walk) (statement : Located Statement) : Passage where
  slot := { statement, here := w.cursor.offset, span := ((w.enter statement).move registry statement).1 }
  symbols := (w.enter statement).symbols
  naming := (w.noting statement).nameEvents statement
  moving := (w.enter statement).moveEvents registry statement

/-- What there is to see on the way through a program. -/
def trail : Program → Walk → List Passage
  | [], _ => []
  | statement :: program, w => w.passage registry statement :: trail program (w.pass registry statement)

/-- The walk to the end of a program. -/
def passAll (program : Program) (w : Walk) : Walk := program.foldl (pass registry) w

theorem passAll_cons (statement : Located Statement) (program : Program) (w : Walk) :
    passAll registry (statement :: program) w =
      passAll registry program (w.pass registry statement) := rfl

theorem passAll_within (program : Program) (w : Walk) :
    w.symbols.source.Within (passAll registry program w).symbols.source := by
  induction program generalizing w with
  | nil => exact .refl _
  | cons statement program ih => exact (pass_within registry w statement).trans (ih _)

/-- A trail leads past all statements. -/
theorem map_statement_trail (program : Program) (w : Walk) :
    (trail registry program w).map (fun p => p.slot.statement) = program := by
  induction program generalizing w with
  | nil => rfl
  | cons statement program ih =>
    rw [trail, List.map_cons, ih]
    rfl

/-- What is on a trail: a passage of some walk past a statement of the program, with names that keep
    their values to the end. -/
theorem mem_trail {program : Program} {w : Walk} {p : Passage} (h : p ∈ trail registry program w) :
    ∃ v : Walk, ∃ statement ∈ program, p = v.passage registry statement ∧
      p.symbols.source.Within (passAll registry program w).symbols.source := by
  induction program generalizing w with
  | nil => simp [trail] at h
  | cons statement program ih =>
    rcases List.mem_cons.1 h with rfl | h
    · refine ⟨w, statement, .head _, rfl, ?_⟩
      -- Moving past the statement gives no name a value, so these are the names after it.
      have hpass := passAll_within registry program (w.pass registry statement)
      rwa [pass, move_symbols] at hpass
    · obtain ⟨v, other, hother, hp, hwithin⟩ := ih h
      exact ⟨v, other, .tail _ hother, hp, hwithin⟩

end Walk

namespace Passage

def position (p : Passage) : Position := p.slot.statement.position

/-- The bytes that the statement writes, with their parts. -/
def writes? (registry : Registry) (p : Passage) : Option (Span × Layout) :=
  p.slot.span.bind fun span =>
    (Layout.ofStatement p.slot.statement.value span.size registry).toOption.map (span, ·)

/-- What is wrong with the arguments of a statement that writes. -/
def misfit? (registry : Registry) (p : Passage) : Option (Span × AssembleFault) :=
  p.slot.span.bind fun span =>
    match Layout.ofStatement p.slot.statement.value span.size registry with
    | .ok _ => none
    | .error fault => some (span, fault)

/-- A passage of a sound program: its statement has the promised parts. -/
structure Sound (registry : Registry) (p : Passage) : Prop where
  statement : p.slot.statement.value.Sound registry
  layout : ∀ span, p.slot.span = some span → span.offset = p.slot.here ∧
    p.slot.statement.value.Writes registry span.size ∧
    ∃ l, Layout.ofStatement p.slot.statement.value span.size registry = .ok l ∧
      l.Neat span.size ∧ ∀ f ∈ l.fields, f.Sound

end Passage

/-- The passages of a sound program are sound. -/
theorem Walk.sound_of_mem_trail {registry : Registry} (hr : registry.WellFormed) {program : Program}
    (hs : ∀ st ∈ program, st.value.Sound registry) {w : Walk} {p : Passage}
    (h : p ∈ w.trail registry program) : p.Sound registry := by
  obtain ⟨v, statement, hstatement, rfl, _⟩ := Walk.mem_trail registry h
  refine ⟨hs statement hstatement, fun span hspan => ?_⟩
  simp only [passage, move] at hspan ⊢
  split at hspan
  · rename_i span' next hstep
    obtain rfl : span' = some span := hspan
    -- The span was found by the step of the cursor, which looks at the same statement.
    obtain ⟨hoffset, _, hwrites⟩ := Cursor.writes_of_step hstep
    refine ⟨?_, hwrites, Layout.ofStatement_of_step hr (hs statement hstatement) hstep⟩
    rw [hoffset, enter_cursor]
  · simp at hspan

/-! ## Independence of the report -/

namespace Walk

variable (registry : Registry)

theorem pass_withReport (w : Walk) (r : Report) (statement : Located Statement) :
    (w.withReport r).pass registry statement = (w.pass registry statement).withReport
      (r.recordAll ((w.passage registry statement).naming ++
        (w.passage registry statement).moving)) := by
  simp only [pass, enter_withReport, move_withReport, Report.recordAll_append, passage]

@[simp]
theorem passage_withReport (w : Walk) (r : Report) (statement : Located Statement) :
    (w.withReport r).passage registry statement = w.passage registry statement := by
  simp only [passage, enter_withReport, move_withReport]
  rfl

/-- A trail does not depend on what was reported before. -/
@[simp]
theorem trail_withReport (program : Program) (w : Walk) (r : Report) :
    (w.withReport r).trail registry program = w.trail registry program := by
  induction program generalizing w r with
  | nil => rfl
  | cons statement program ih => simp only [trail, passage_withReport, pass_withReport, ih]

/-- What is reported of walking through a program. -/
theorem passAll_withReport (program : Program) (w : Walk) (r : Report) :
    (w.withReport r).passAll registry program = (w.passAll registry program).withReport
      (r.recordAll ((w.trail registry program).flatMap fun p => p.naming ++ p.moving)) := by
  induction program generalizing w r with
  | nil => rfl
  | cons statement program ih =>
    rw [passAll_cons, passAll_cons, pass_withReport, ih, trail, List.flatMap_cons,
      Report.recordAll_append r (_ ++ _)]

end Walk

/-! ## The first pass of the two-pass engine -/

/-- The first pass finds the places on the trail. -/
theorem TwoPass.layOut_eq (registry : Registry) (program : Program) (w : Walk) :
    layOut registry program w =
      ((w.trail registry program).map Passage.slot, w.passAll registry program) := by
  induction program generalizing w with
  | nil => rfl
  | cons statement program ih =>
    rw [layOut]
    simp only
    rw [show ((w.enter statement).move registry statement).2 = w.pass registry statement from rfl, ih]
    rfl

/-! ## The pass of the one-pass engine -/

namespace OnePass

section Fields

variable (symbols : Symbols) (position : Position) (here base : UInt32)

/-- Whether the value of a field is not known yet. -/
def isOpen (f : Field) : Bool :=
  match knownPatch? symbols here base f with
  | .ok none => true
  | _ => false

theorem isOpen_iff {f : Field} :
    isOpen symbols here base f = true ↔ knownPatch? symbols here base f = .ok none := by
  unfold isOpen
  split
  · simp_all
  · simp_all

/-- The patches of the fields whose values are known. -/
def knownPatches (fields : List Field) : List Patch :=
  fields.filterMap fun f =>
    match knownPatch? symbols here base f with
    | .ok patch? => patch?
    | .error _ => none

/-- What is reported of filling in fields whose values are known. -/
def knownEvents (fields : List Field) : List Event :=
  fields.flatMap fun f => Event.ofOutcome position (knownPatch? symbols here base f)

theorem fillKnown_eq (fields : List Field) (r : Report) :
    fillKnown symbols position here base fields r =
      (knownPatches symbols here base fields, fields.filter (isOpen symbols here base),
        r.recordAll (knownEvents symbols position here base fields)) := by
  induction fields generalizing r with
  | nil => rfl
  | cons f fields ih =>
    rw [fillKnown]
    -- A fault, a value that is not known yet, or a patch.
    rcases hknown : knownPatch? symbols here base f with fault | (_ | patch)
    · simp [ih, knownPatches, knownEvents, isOpen, hknown, Event.ofOutcome, Report.record]
    · simp [ih, knownPatches, knownEvents, isOpen, hknown, Event.ofOutcome]
    · simp [ih, knownPatches, knownEvents, isOpen, hknown, Event.ofOutcome]

end Fields

end OnePass

namespace Passage

/-- What is reported on the way of an assertion or a message. -/
def spokenNow (p : Passage) : List Event :=
  match p.slot.statement.value with
  | .assertion condition =>
    match condition.eval p.symbols.source p.slot.here with
    | .ok (.known value) => Event.ofOutcome p.position (checkAssertion value)
    | .ok (.deferred _) => []
    | .error fault => [.fault p.position (.eval fault)]
  | .report severity text => [.note severity p.position text]
  | _ => []

/-- The assertion, if its value is not known on the way. -/
def openAssertion? (p : Passage) : Option OpenAssertion :=
  match p.slot.statement.value with
  | .assertion condition =>
    match condition.eval p.symbols.source p.slot.here with
    | .ok (.deferred _) => some { position := p.position, here := p.slot.here, condition }
    | _ => none
  | _ => none

/-- The warning of a code off its alignment. -/
def alignment (registry : Registry) (p : Passage) (span : Span) : List Event :=
  match alignmentWarning? registry p.slot.statement.value span.offset with
  | some text => [.note .warning p.position text]
  | none => []

variable (context : Context)

/-- The chunk of a statement that writes. -/
def chunk? (p : Passage) : Option (Chunk Field) :=
  (p.writes? context.registry).map fun (span, layout) =>
    { position := p.position
      span
      patches := layout.fixed ++
        OnePass.knownPatches p.symbols span.offset context.pointerBase layout.fields
      fields := layout.fields.filter (OnePass.isOpen p.symbols span.offset context.pointerBase) }

/-- What is reported on the way of the bytes of a statement. -/
def emittedNow (p : Passage) : List Event :=
  match p.slot.span with
  | none => []
  | some span => p.alignment context.registry span ++
    match Layout.ofStatement p.slot.statement.value span.size context.registry with
    | .error fault => [.fault p.position fault]
    | .ok layout =>
      OnePass.knownEvents p.symbols p.position span.offset context.pointerBase layout.fields

/-- What is reported on the way. -/
def reportedNow (p : Passage) : List Event :=
  p.naming ++ p.spokenNow ++ p.moving ++ p.emittedNow context

end Passage

namespace OnePass

theorem warnAlignment_eq (r : Report) (registry : Registry) (p : Passage) (span : Span) :
    warnAlignment r registry p.slot.statement span = r.recordAll (p.alignment registry span) := by
  simp only [warnAlignment, Passage.alignment]
  cases alignmentWarning? registry p.slot.statement.value span.offset <;> rfl

/-- What is said of a statement on the way. -/
theorem speak_eq (registry : Registry) (s : State) (statement : Located Statement) :
    let p := s.walk.passage registry statement
    let spoken := speak { s with walk := s.walk.enter statement } statement
    spoken.walk = (s.walk.enter statement).withReport
        (s.walk.report.recordAll (p.naming ++ p.spokenNow)) ∧
      spoken.chunks = s.chunks ∧
      spoken.assertions.toList = s.assertions.toList ++ p.openAssertion?.toList ∧
      spoken.protections.toList = s.protections.toList ++ p.slot.protection?.toList := by
  have henter := Walk.enter_withReport s.walk s.walk.report statement
  rw [Walk.withReport_self] at henter
  have hreport : (s.walk.enter statement).report =
      s.walk.report.recordAll (s.walk.passage registry statement).naming :=
    congrArg Walk.report henter
  simp only [Report.recordAll_append, ← hreport]
  obtain ⟨position, statement⟩ := statement
  cases statement with
  | assertion condition =>
    simp only [speak, Walk.enter_cursor, Passage.spokenNow, Passage.openAssertion?, Walk.passage,
      Slot.protection?, Passage.position]
    -- A fault, a value that is checked at once, or an assertion that stays open.
    rcases condition.eval (s.walk.enter _).symbols.source s.walk.cursor.offset with _ | (_ | _)
    · exact ⟨rfl, rfl, by simp [State.mapReport], by simp [State.mapReport]⟩
    · refine ⟨?_, rfl, by simp [State.mapReport], by simp [State.mapReport]⟩
      rw [← Report.outcome_eq_recordAll]
      rfl
    · exact ⟨rfl, rfl, by simp, by simp⟩
  | protect start stop =>
    exact ⟨rfl, rfl, by simp [speak, Passage.openAssertion?, Walk.passage],
      by simp [speak, Slot.protection?, Walk.passage]⟩
  | report severity text =>
    exact ⟨rfl, rfl, by simp [speak, Passage.openAssertion?, Walk.passage, State.mapReport],
      by simp [speak, Slot.protection?, Walk.passage, State.mapReport]⟩
  | _ =>
    exact ⟨rfl, rfl, by simp [speak, Passage.openAssertion?, Walk.passage],
      by simp [speak, Slot.protection?, Walk.passage]⟩

/-- What is done on the way with a statement that writes. -/
theorem emit_eq (context : Context) (s : State) (p : Passage) (hsymbols : s.walk.symbols = p.symbols)
    {span : Span} (hspan : p.slot.span = some span) :
    let emitted := emit context s p.slot.statement span
    emitted.walk = s.walk.withReport (s.walk.report.recordAll (p.emittedNow context)) ∧
      emitted.chunks.toList = s.chunks.toList ++ (p.chunk? context).toList ∧
      emitted.assertions = s.assertions ∧ emitted.protections = s.protections := by
  simp only [emit, State.mapReport, warnAlignment_eq, Passage.emittedNow, hspan, Passage.chunk?,
    Passage.writes?, Option.bind_some, fillKnown_eq, ← hsymbols]
  cases Layout.ofStatement p.slot.statement.value span.size context.registry with
  | error fault =>
    rw [Report.recordAll_append]
    exact ⟨rfl, by simp [Except.toOption], rfl, rfl⟩
  | ok layout =>
    rw [Report.recordAll_append]
    exact ⟨rfl, by simp [Except.toOption]; rfl, rfl, rfl⟩

/-- What one statement does to the state. -/
theorem step_eq (context : Context) (s : State) (statement : Located Statement) :
    let p := s.walk.passage context.registry statement
    (step context s statement).walk = (s.walk.pass context.registry statement).withReport
        (s.walk.report.recordAll (p.reportedNow context)) ∧
      (step context s statement).chunks.toList = s.chunks.toList ++ (p.chunk? context).toList ∧
      (step context s statement).assertions.toList =
        s.assertions.toList ++ p.openAssertion?.toList ∧
      (step context s statement).protections.toList =
        s.protections.toList ++ p.slot.protection?.toList := by
  intro p
  obtain ⟨hwalk, hchunks, hassertions, hprotections⟩ := speak_eq context.registry s statement
  -- The state when the cursor has moved past the statement, before it writes.
  let passed : State :=
    { speak { s with walk := s.walk.enter statement } statement with
      walk := (s.walk.pass context.registry statement).withReport
        (s.walk.report.recordAll (p.naming ++ p.spokenNow ++ p.moving)) }
  have hstep : step context s statement =
      match p.slot.span with
      | none => passed
      | some span => emit context passed statement span := by
    simp only [step, hwalk, Walk.move_withReport, ← Report.recordAll_append]
    rfl
  have hsymbols : passed.walk.symbols = p.symbols := Walk.move_symbols ..
  rw [hstep]
  cases hspan : p.slot.span with
  | none =>
    -- A statement that writes nothing leaves no chunk and has no more to report.
    have hnow : p.emittedNow context = [] := by simp only [Passage.emittedNow, hspan]
    have hchunk : p.chunk? context = none := by simp [Passage.chunk?, Passage.writes?, hspan]
    rw [Passage.reportedNow, hnow, hchunk]
    exact ⟨by rw [List.append_nil], by simp [passed, hchunks], hassertions, hprotections⟩
  | some span =>
    obtain ⟨hw, hc, ha, hp⟩ := emit_eq context passed p hsymbols hspan
    refine ⟨hw.trans ?_, hc.trans (by simp only [passed, hchunks]), ?_, ?_⟩
    · rw [Passage.reportedNow, Report.recordAll_append _ _ (p.emittedNow context)]
      rfl
    · rw [show (emit context passed statement span).assertions = passed.assertions from ha]
      exact hassertions
    · rw [show (emit context passed statement span).protections = passed.protections from hp]
      exact hprotections

/-- What all statements of a program do to the state. -/
theorem foldl_step_eq (context : Context) (program : Program) (s : State) :
    let trail := s.walk.trail context.registry program
    let state := program.foldl (step context) s
    state.walk = (s.walk.passAll context.registry program).withReport
        (s.walk.report.recordAll (trail.flatMap (Passage.reportedNow context))) ∧
      state.chunks.toList = s.chunks.toList ++ trail.filterMap (Passage.chunk? context) ∧
      state.assertions.toList = s.assertions.toList ++ trail.filterMap Passage.openAssertion? ∧
      state.protections.toList =
        s.protections.toList ++ trail.filterMap fun p => p.slot.protection? := by
  induction program generalizing s with
  | nil => simp [Walk.trail, Walk.passAll, Walk.withReport_self]
  | cons statement program ih =>
    obtain ⟨hwalk, hchunks, hassertions, hprotections⟩ := step_eq context s statement
    obtain ⟨hw, hc, ha, hp⟩ := ih (step context s statement)
    -- The rest of the program is walked through with another report, which does not matter for its
    -- trail.
    simp only [hwalk, Walk.trail_withReport, Walk.passAll_withReport, hchunks, hassertions,
      hprotections, List.append_assoc] at hw hc ha hp
    simp only [List.foldl_cons, Walk.trail, Walk.passAll_cons, List.flatMap_cons,
      Report.recordAll_append, List.filterMap_cons]
    refine ⟨?_, ?_, ?_, ?_⟩
    · rw [hw]
      rfl
    · rw [hc]
      cases Passage.chunk? context (s.walk.passage context.registry statement) <;> rfl
    · rw [ha]
      cases Passage.openAssertion? (s.walk.passage context.registry statement) <;> rfl
    · rw [hp]
      cases (s.walk.passage context.registry statement).slot.protection? <;> rfl

end OnePass

end CartScript.Assembly
