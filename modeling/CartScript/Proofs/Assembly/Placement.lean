import CartScript.Proofs.Assembly.Trail

/-!
# Places for data on a trail

Once a walk is over, the data that statements refer to gets its place in free space, in the order of
the trail.  Both engines ask for the same places: the fields that the one-pass engine has filled in
by then need none.
-/

namespace CartScript.Assembly

open TwoPass (Slot Content)
open OnePass (Chunk)

namespace Placing

/-- The same places with another report. -/
def withReport (p : Placing) (report : Report) : Placing := { p with report }

@[simp]
theorem withReport_report (p : Placing) (r : Report) : (p.withReport r).report = r := rfl

@[simp]
theorem withReport_blocks (p : Placing) (r : Report) : (p.withReport r).blocks = p.blocks := rfl

/-- What is reported of finding a place for data. -/
def placeEvents (p : Placing) (position : Position) (data : Arg) (element : Nat) : List Event :=
  if data.inlineSize element = 0 then []
  else Event.ofOutcome position (p.allocator.allocateData (data.inlineSize element))

theorem place_withReport (p : Placing) (r : Report) (position : Position) (data : Arg)
    (element : Nat) :
    (p.withReport r).place position data element =
      ((p.place position data element).1, (p.place position data element).2.withReport
        (r.recordAll (p.placeEvents position data element))) := by
  simp only [place, placeEvents, withReport]
  -- Empty data needs no place, and nothing can go wrong.
  by_cases hsize : data.inlineSize element = 0
  · simp only [if_pos hsize]
    rfl
  · simp only [if_neg hsize]
    cases p.allocator.allocateData (data.inlineSize element) <;> rfl

/-- What is reported of finding places for the data of fields. -/
def fieldsEvents (position : Position) : List Field → Placing → List Event
  | [], _ => []
  | f :: rest, p =>
    match f.source with
    | .expr _ => fieldsEvents position rest p
    | .inline data element =>
      p.placeEvents position data element ++
        fieldsEvents position rest (p.place position data element).2

theorem fields_withReport (position : Position) (fs : List Field) (p : Placing) (r : Report) :
    fields position fs (p.withReport r) =
      ((fields position fs p).1,
        (fields position fs p).2.withReport (r.recordAll (fieldsEvents position fs p))) := by
  induction fs generalizing p r with
  | nil => rfl
  | cons f fs ih =>
    simp only [fields, fieldsEvents]
    cases f.source with
    | expr value => simp only [ih]
    | inline data element => simp only [place_withReport, ih, Report.recordAll_append]

/-- The fields are those for whose data places were found. -/
@[simp]
theorem map_toField_fields (position : Position) (fs : List Field) (p : Placing) :
    (fields position fs p).1.map PlacedField.toField = fs := by
  induction fs generalizing p with
  | nil => rfl
  | cons f fs ih =>
    simp only [fields]
    cases f.source with
    | expr value | inline data element => simp only [List.map_cons, ih]

/-- A selection of fields that keeps all fields with data. -/
def KeepsData (keep : Field → Bool) : Prop :=
  ∀ f data element, f.source = .inline data element → keep f = true

/-- Fields without data do not matter for the places of the others. -/
theorem fields_filter {keep : Field → Bool} (hkeep : KeepsData keep) (position : Position)
    (fs : List Field) (p : Placing) :
    fields position (fs.filter keep) p =
      ((fields position fs p).1.filter fun f => keep f.toField, (fields position fs p).2) := by
  induction fs generalizing p with
  | nil => rfl
  | cons f fs ih =>
    cases hsource : f.source with
    | expr value =>
      -- An expression takes no place, whether it is kept or not.
      by_cases hf : keep f = true
      · simp only [List.filter_cons, hf, fields, hsource, ih, if_true]
      · simp only [List.filter_cons, hf, fields, hsource, ih, Bool.false_eq_true, if_false]
    | inline data element =>
      -- Data is kept, so the places are asked for in the same order.
      have hf := hkeep f data element hsource
      simp only [List.filter_cons, hf, fields, hsource, ih, if_true]

/-- Fields without data need no place. -/
theorem fields_of_exprs {fs : List Field} (h : ∀ f ∈ fs, ∃ e, f.source = .expr e)
    (position : Position) (p : Placing) :
    fields position fs p = (fs.map fun f => { toField := f }, p) ∧
      fieldsEvents position fs p = [] := by
  induction fs with
  | nil => exact ⟨rfl, rfl⟩
  | cons f fs ih =>
    obtain ⟨⟨e, he⟩, hrest⟩ := List.forall_mem_cons.1 h
    obtain ⟨hfields, hevents⟩ := ih hrest
    -- Only data asks for a place, and this is an expression.
    simp only [fields, fieldsEvents, he, hfields, hevents, List.map_cons, and_self]

end Placing

/-! ## Items -/

/-- The bytes of a statement with their parts, where data in free space has its place. -/
structure Piece where
  span : Span
  layout : Layout
  fields : List PlacedField
  deriving Repr, DecidableEq, Inhabited

/-- A statement on the trail with what it writes. -/
structure Item where
  passage : Passage
  piece : Option Piece
  deriving Repr, DecidableEq, Inhabited

/-- Finds places for the data of the statements of a trail. -/
def placeTrail (registry : Registry) : List Passage → Placing → List Item × Placing
  | [], p => ([], p)
  | passage :: trail, p =>
    match passage.writes? registry with
    | none =>
      let (items, p) := placeTrail registry trail p
      (⟨passage, none⟩ :: items, p)
    | some (span, layout) =>
      let (fields, p) := Placing.fields passage.position layout.fields p
      let (items, p) := placeTrail registry trail p
      (⟨passage, some ⟨span, layout, fields⟩⟩ :: items, p)

/-- What is reported of finding places for the data of the statements of a trail. -/
def placeTrailEvents (registry : Registry) : List Passage → Placing → List Event
  | [], _ => []
  | passage :: trail, p =>
    match passage.writes? registry with
    | none => placeTrailEvents registry trail p
    | some (_, layout) =>
      Placing.fieldsEvents passage.position layout.fields p ++
        placeTrailEvents registry trail (Placing.fields passage.position layout.fields p).2

theorem placeTrail_withReport (registry : Registry) (trail : List Passage) (p : Placing)
    (r : Report) :
    placeTrail registry trail (p.withReport r) =
      ((placeTrail registry trail p).1,
        (placeTrail registry trail p).2.withReport
          (r.recordAll (placeTrailEvents registry trail p))) := by
  induction trail generalizing p r with
  | nil => rfl
  | cons passage trail ih =>
    simp only [placeTrail, placeTrailEvents]
    cases passage.writes? registry with
    | none => simp only [ih]
    | some written => simp only [Placing.fields_withReport, ih, Report.recordAll_append]

theorem map_passage_placeTrail (registry : Registry) (trail : List Passage) (p : Placing) :
    (placeTrail registry trail p).1.map Item.passage = trail := by
  induction trail generalizing p with
  | nil => rfl
  | cons passage trail ih =>
    simp only [placeTrail]
    cases passage.writes? registry with
    | none | some written => simp only [List.map_cons, ih]

/-- What a statement without data in free space writes. -/
def Passage.piece? (registry : Registry) (p : Passage) : Option Piece :=
  (p.writes? registry).map fun (span, layout) =>
    ⟨span, layout, layout.fields.map fun f => { toField := f }⟩

/-- Statements without data leave free space alone. -/
theorem placeTrail_of_exprs {registry : Registry} {trail : List Passage}
    (h : ∀ p ∈ trail, ∀ span layout, p.writes? registry = some (span, layout) →
      ∀ f ∈ layout.fields, ∃ e, f.source = .expr e) (placing : Placing) :
    placeTrail registry trail placing = (trail.map fun p => ⟨p, p.piece? registry⟩, placing) ∧
      placeTrailEvents registry trail placing = [] := by
  induction trail with
  | nil => exact ⟨rfl, rfl⟩
  | cons p trail ih =>
    obtain ⟨hp, hrest⟩ := List.forall_mem_cons.1 h
    obtain ⟨htrail, hevents⟩ := ih hrest
    cases hwrites : p.writes? registry with
    | none => simp [placeTrail, placeTrailEvents, Passage.piece?, hwrites, htrail, hevents]
    | some written =>
      obtain ⟨hfields, hplace⟩ :=
        Placing.fields_of_exprs (hp written.1 written.2 hwrites) p.position placing
      simp [placeTrail, placeTrailEvents, Passage.piece?, hwrites, hfields, hplace, htrail, hevents]

namespace Item

/-- An item whose piece is what its statement writes. -/
structure Fits (registry : Registry) (item : Item) : Prop where
  writes : item.passage.writes? registry = item.piece.map fun piece => (piece.span, piece.layout)
  fields : ∀ piece, item.piece = some piece →
    piece.fields.map PlacedField.toField = piece.layout.fields

end Item

theorem fits_of_mem_placeTrail {registry : Registry} {trail : List Passage} {p : Placing} {item : Item}
    (h : item ∈ (placeTrail registry trail p).1) : item.Fits registry := by
  induction trail generalizing p with
  | nil => simp [placeTrail] at h
  | cons passage trail ih =>
    cases hwrites : passage.writes? registry with
    | none =>
      simp only [placeTrail, hwrites] at h
      rcases List.mem_cons.1 h with rfl | h
      · exact ⟨by simp [hwrites], by simp⟩
      · exact ih h
    | some written =>
      simp only [placeTrail, hwrites] at h
      rcases List.mem_cons.1 h with rfl | h
      · refine ⟨by simp [hwrites], ?_⟩
        rintro _ ⟨⟩
        exact Placing.map_toField_fields ..
      · exact ih h

/-! ## Both engines find the places on the trail -/

/-- The item as the two-pass engine has it. -/
def Item.content (registry : Registry) (item : Item) : Slot × Content :=
  (item.passage.slot,
    match item.piece, item.passage.misfit? registry with
    | some piece, _ => .patches piece.span piece.layout.fixed piece.fields
    | none, some (span, fault) => .faulty span fault
    | none, none => .nothing)

/-- The item as the one-pass engine has it: the fields that were filled in are left out. -/
def Item.chunk? (context : Context) (item : Item) : Option (Chunk PlacedField) :=
  item.piece.map fun piece =>
    let symbols := item.passage.symbols
    { position := item.passage.position
      span := piece.span
      patches := piece.layout.fixed ++
        OnePass.knownPatches symbols piece.span.offset context.pointerBase piece.layout.fields
      fields := piece.fields.filter fun f =>
        OnePass.isOpen symbols piece.span.offset context.pointerBase f.toField }

/-- `TwoPass` finds the places on the trail. -/
theorem TwoPass.placeAll_eq (registry : Registry) (trail : List Passage) (p : Placing) :
    placeAll registry (trail.map Passage.slot) p =
      ((placeTrail registry trail p).1.map (Item.content registry),
        (placeTrail registry trail p).2) := by
  induction trail generalizing p with
  | nil => rfl
  | cons passage trail ih =>
    simp only [List.map_cons, placeAll, placeTrail, Passage.writes?, ih]
    cases hspan : passage.slot.span with
    | none => simp [Item.content, Passage.misfit?, hspan]
    | some span =>
      -- Arguments that do not fit have no layout; the first engine keeps the fault for its second
      -- pass.
      cases hlayout : Layout.ofStatement passage.slot.statement.value span.size registry with
      | error fault => simp [Item.content, Passage.misfit?, hspan, hlayout, Except.toOption]
      | ok layout => simp [Item.content, hlayout, Passage.position, Except.toOption]

theorem OnePass.keepsData_isOpen (symbols : Symbols) (here base : UInt32) :
    Placing.KeepsData (isOpen symbols here base) := by
  intro f data element hsource
  simp [isOpen, knownPatch?, hsource]

/-- `OnePass` finds the places on the trail. -/
theorem OnePass.placeAll_eq (context : Context) (trail : List Passage) (p : Placing) :
    placeAll (trail.filterMap (Passage.chunk? context)) p =
      ((placeTrail context.registry trail p).1.filterMap (Item.chunk? context),
        (placeTrail context.registry trail p).2) := by
  induction trail generalizing p with
  | nil => rfl
  | cons passage trail ih =>
    cases hwrites : passage.writes? context.registry with
    | none => simp [Passage.chunk?, hwrites, placeTrail, List.filterMap_cons, Item.chunk?, ih]
    | some written =>
      -- The fields that are filled in already hold expressions only.
      have hfilter := Placing.fields_filter
        (keepsData_isOpen passage.symbols written.1.offset context.pointerBase)
        passage.position written.2.fields p
      simp [Passage.chunk?, hwrites, placeTrail, Item.chunk?, ih, placeAll, hfilter]

end CartScript.Assembly
