import CartScript.Proofs.Assembly.Agreement

/-!
# Assemblies that change nothing

Statements may write bytes that are there already.  An assembly of such statements leaves the image
as it is, and if nothing else is to be reported, its log, too.
-/

namespace CartScript

variable {bytes : List UInt8} {image : Image} {patches : List Patch} {symbols : Symbols}
  {base : UInt32} {i : Nat}

/-- What is read lies in the image. -/
theorem Image.of_read? {offset : UInt32} {size : Nat} (h : image.read? offset size = some bytes) :
    bytes.length = size ∧ offset.toNat + size ≤ image.size ∧
      ∀ k < size, image[offset.toNat + k]? = bytes[k]? := by
  unfold read? at h
  split at h
  · rename_i hin
    obtain rfl := Option.some.inj h
    refine ⟨by simp; omega, hin, fun k hk => ?_⟩
    rw [Array.getElem?_toList, Array.getElem?_extract, if_pos (by omega)]
  · simp at h

/-! ## Patches that are there already -/

/-- Bytes that stand among others already. -/
def Patch.Matches (bytes : List UInt8) (p : Patch) : Prop :=
  (bytes.drop p.start).take p.bytes.length = p.bytes

theorem Patch.Matches.getElem? {p : Patch} (h : p.Matches bytes) (hstart : p.start ≤ i)
    (hstop : i < p.start + p.bytes.length) : p.bytes[i - p.start]? = bytes[i]? := by
  rw [← h, List.getElem?_take_of_lt (by omega), List.getElem?_drop, Nat.add_sub_cancel' hstart]

/-- Bytes are kept once they are there, and are there after a patch that covers them. -/
theorem Patch.getElem?_foldl_of_matches (h : ∀ p ∈ patches, p.Matches bytes) (hi : i < image.size)
    (hcovers : image[i]? = bytes[i]? ∨ ∃ p ∈ patches, p.interval.contains i = true) :
    (patches.foldl apply image)[i]? = bytes[i]? := by
  -- The byte may be there from the beginning, or from the first patch that covers it; no later
  -- patch changes it.
  induction patches generalizing image with
  | nil => simpa using hcovers
  | cons p patches ih =>
    obtain ⟨hp, hrest⟩ := List.forall_mem_cons.1 h
    refine ih hrest (by rw [apply, Image.size_overwrite]; exact hi) ?_
    rcases hin : p.interval.contains i with _ | _
    · have hsame : (apply image p)[i]? = image[i]? :=
        Image.getElem?_overwrite_of_outside _ (Interval.contains_eq_false_iff.1 hin)
      rcases hcovers with hi | ⟨q, hq, hqi⟩
      · exact .inl (hsame.trans hi)
      · rcases List.mem_cons.1 hq with rfl | hq
        · rw [hin] at hqi
          simp at hqi
        · exact .inr ⟨q, hq, hqi⟩
    · obtain ⟨hstart, hstop⟩ := Interval.contains_iff.1 hin
      have hwritten : (apply image p)[i]? = p.bytes[i - p.start]? :=
        Image.getElem?_overwrite_of_inside _ hstart hstop hi
      exact .inl (hwritten.trans (hp.getElem? hstart hstop))

/-- Bytes that patches hold, with zeros where there is none. -/
theorem Patch.render_of_matches (h : ∀ p ∈ patches, p.Matches bytes)
    (hcovers : ∀ i < bytes.length, bytes[i]? ≠ some 0 → ∃ p ∈ patches, p.interval.contains i = true) :
    render bytes.length patches = bytes := by
  refine List.ext_getElem? fun i => ?_
  by_cases hi : i < bytes.length
  · rw [render_eq, Array.getElem?_toList]
    refine getElem?_foldl_of_matches h (by simpa using hi) ?_
    -- What no patch covers is zero, in the bytes and in what is rendered.
    by_cases hzero : bytes[i]? = some 0
    · left
      rw [hzero]
      simp [hi]
    · exact .inr (hcovers i hi hzero)
  · rw [List.getElem?_eq_none (by simpa using hi), List.getElem?_eq_none (by simpa using hi)]

/-! ## Parts that are there already -/

/-- A field whose expression, wherever it stands, gives bytes that are there already. -/
def Field.Shows (symbols : Symbols) (base : UInt32) (bytes : List UInt8) (f : Field) : Prop :=
  ∃ e value patch, f.source = .expr e ∧ (∀ here, symbols.resolve e here = .ok value) ∧
    f.encode value base = .ok patch ∧ patch.Matches bytes

namespace Layout

/-- Parts that hold bytes that are there already, all those of a region among them. -/
structure Shows (symbols : Symbols) (base : UInt32) (bytes : List UInt8) (region : Nat → Prop)
    (l : Layout) : Prop where
  fixed : ∀ p ∈ l.fixed, p.Matches bytes
  fields : ∀ f ∈ l.fields, f.Shows symbols base bytes
  covers : ∀ k, region k → ∃ i ∈ l.intervals, i.contains k = true

variable {symbols : Symbols} {base : UInt32} {bytes : List UInt8}

/-- A field that holds bytes. -/
theorem shows_field {f : Field} {e : Expr} {value : Int64} (hsource : f.source = .expr e)
    (hvalue : ∀ here, symbols.resolve e here = .ok value)
    (hencode : Encoding.int (if f.isPointer then Encoding.pointer value base else value) f.width =
      .ok ((bytes.drop f.start).take f.width)) : f.Shows symbols base bytes := by
  refine ⟨e, value, ⟨f.start, (bytes.drop f.start).take f.width⟩, hsource, hvalue, ?_, ?_⟩
  · rw [Field.encode, hencode]
    rfl
  · show (bytes.drop f.start).take ((bytes.drop f.start).take f.width).length = _
    rw [Encoding.length_int hencode]

theorem Shows.single {f : Field} {i : Interval} (h : f.Shows symbols base bytes)
    (hplace : f.interval = i) :
    Shows symbols base bytes (fun k => i.contains k = true) { fields := [f] } where
  fixed _ hp := absurd hp List.not_mem_nil
  fields g hg := List.mem_singleton.1 hg ▸ h
  covers k hk := ⟨i, by simp [intervals, hplace], hk⟩

theorem Shows.patch {p : Patch} {i : Interval} (h : p.Matches bytes) (hplace : p.interval = i) :
    Shows symbols base bytes (fun k => i.contains k = true) { fixed := [p] } where
  fixed q hq := List.mem_singleton.1 hq ▸ h
  fields _ hf := absurd hf List.not_mem_nil
  covers k hk := ⟨i, by simp [intervals, hplace], hk⟩

theorem Shows.append {a b : Layout} {left right : Nat → Prop}
    (ha : a.Shows symbols base bytes left) (hb : b.Shows symbols base bytes right) :
    (a.append b).Shows symbols base bytes fun k => left k ∨ right k where
  fixed := List.forall_mem_append.2 ⟨ha.fixed, hb.fixed⟩
  fields := List.forall_mem_append.2 ⟨ha.fields, hb.fields⟩
  covers k hk := by
    simp only [(intervals_append a b).mem_iff, List.mem_append]
    rcases hk with hk | hk
    · obtain ⟨i, hi, hin⟩ := ha.covers k hk
      exact ⟨i, .inl hi, hin⟩
    · obtain ⟨i, hi, hin⟩ := hb.covers k hk
      exact ⟨i, .inr hi, hin⟩

theorem Shows.mono {l : Layout} {region part : Nat → Prop} (h : l.Shows symbols base bytes region)
    (hpart : ∀ k, part k → region k) : l.Shows symbols base bytes part where
  fixed := h.fixed
  fields := h.fields
  covers k hk := h.covers k (hpart k hk)

/-- Numbers one after the other. -/
theorem Shows.ints {start width : Nat} (hpos : 1 ≤ width) {values : List Expr}
    (hvalues : ∀ i (hi : i < values.length), ∃ value,
      (∀ here, symbols.resolve values[i] here = .ok value) ∧
        Encoding.int value width = .ok ((bytes.drop (start + i * width)).take width)) :
    Shows symbols base bytes
      (fun k => Interval.contains ⟨start, start + values.length * width⟩ k = true)
      { fields := Field.ints start width values } where
  fixed _ hp := absurd hp List.not_mem_nil
  fields f hf := by
    rw [Field.ints, List.mem_mapIdx] at hf
    obtain ⟨i, hi, rfl⟩ := hf
    obtain ⟨value, hvalue, hencode⟩ := hvalues i hi
    exact shows_field rfl hvalue hencode
  covers k hk := by
    -- The field that holds byte `k`.
    obtain ⟨hstart, hstop⟩ := Interval.contains_iff.1 hk
    have hi : (k - start) / width < values.length :=
      (Nat.div_lt_iff_lt_mul hpos).2 (by dsimp only at hstart hstop; omega)
    have hdiv := Nat.div_add_mod (k - start) width
    have hmod := Nat.mod_lt (k - start) hpos
    rw [Nat.mul_comm] at hdiv
    refine ⟨(Field.int (start + (k - start) / width * width) width
      values[(k - start) / width]).interval, ?_, Interval.contains_iff.2 ?_⟩
    · rw [intervals_fields]
      refine List.mem_map_of_mem ?_
      rw [Field.ints, List.mem_mapIdx]
      exact ⟨(k - start) / width, hi, rfl⟩
    · dsimp only [Field.interval, Field.int] at hstart hstop ⊢
      omega

end Layout

/-! ## Parts that are put in their place -/

/-- A field that shows what is there gives bytes that are there. -/
theorem Field.Shows.resolve {f : Assembly.PlacedField} (h : f.toField.Shows symbols base bytes)
    (here : UInt32) : ∃ patch, f.resolve symbols here base = .ok patch ∧ patch.Matches bytes := by
  obtain ⟨e, value, patch, hsource, hvalue, hencode, hmatches⟩ := h
  exact ⟨patch, by simp only [Assembly.PlacedField.resolve, hsource, hvalue, hencode], hmatches⟩

/-- Parts that show what is there are rendered as that. -/
theorem Layout.Shows.render {layout : Layout}
    (h : layout.Shows symbols base bytes fun k => k < bytes.length ∧ bytes[k]? ≠ some 0)
    {fields : List Assembly.PlacedField}
    (hfields : fields.map Assembly.PlacedField.toField = layout.fields) (here : UInt32) :
    Patch.render bytes.length
      (layout.fixed ++ Assembly.PlacedField.patches symbols here base fields) = bytes := by
  have hshows : ∀ f ∈ fields, f.toField.Shows symbols base bytes := fun f hf =>
    h.fields _ (hfields ▸ List.mem_map_of_mem hf)
  refine Patch.render_of_matches (List.forall_mem_append.2 ⟨h.fixed, ?_⟩) ?_
  · intro p hp
    obtain ⟨f, hf, hresolve⟩ := List.mem_filterMap.1 hp
    obtain ⟨q, hresolve', hmatches⟩ := (hshows f hf).resolve here
    rw [hresolve', Except.toOption, Option.some.injEq] at hresolve
    exact hresolve ▸ hmatches
  · intro k hk hne
    obtain ⟨i, hi, hin⟩ := h.covers k ⟨hk, hne⟩
    -- The byte belongs to a fixed part, or to a field, which can be resolved.
    rcases List.mem_append.1 hi with hi | hi
    · obtain ⟨p, hp, rfl⟩ := List.mem_map.1 hi
      exact ⟨p, List.mem_append_left _ hp, hin⟩
    · rw [← hfields, List.map_map] at hi
      obtain ⟨f, hf, rfl⟩ := List.mem_map.1 hi
      obtain ⟨p, hresolve, _⟩ := (hshows f hf).resolve here
      refine ⟨p, List.mem_append_right _ (List.mem_filterMap.2 ⟨f, hf, ?_⟩), ?_⟩
      · rw [hresolve, Except.toOption]
      · rw [Assembly.PlacedField.interval_of_resolve hresolve]
        exact hin

namespace Assembly

/-! ## Passages at which nothing happens -/

/-- A statement of which nothing is reported, and which writes what is there already. -/
structure Passage.Still (context : Context) (final : Symbols) (image : Image) (p : Passage) :
    Prop where
  naming : p.naming = []
  moving : p.moving = []
  protection : p.slot.protection? = none
  spoken : p.spoken final = []
  alignment : ∀ span, p.slot.span = some span → p.alignment context.registry span = []
  written : ∀ span layout, p.writes? context.registry = some (span, layout) → ∃ bytes,
    image.read? span.offset span.size = some bytes ∧
      layout.Shows final context.pointerBase bytes fun k => k < bytes.length ∧ bytes[k]? ≠ some 0

variable {context : Context} {final : Symbols} {image : Image}

theorem placeTrail_of_still {trail : List Passage} (h : ∀ p ∈ trail, p.Still context final image)
    (placing : Placing) :
    (placeTrail context.registry trail placing).2 = placing ∧
      placeTrailEvents context.registry trail placing = [] := by
  obtain ⟨hplace, hevents⟩ := placeTrail_of_exprs
    (fun p hp span layout hwrites f hf => by
      obtain ⟨bytes, _, hshows⟩ := (h p hp).written span layout hwrites
      obtain ⟨e, _, _, he, _⟩ := hshows.fields f hf
      exact ⟨e, he⟩) placing
  exact ⟨congrArg Prod.snd hplace, hevents⟩

/-! ## Items at which nothing happens -/

namespace Item

theorem events_of_shows {fields : List PlacedField} {base : UInt32} {bytes : List UInt8}
    (h : ∀ f ∈ fields, f.toField.Shows final base bytes) (position : Position) (here : UInt32) :
    PlacedField.events final position here base fields = [] := by
  refine List.flatMap_eq_nil_iff.2 fun f hf => ?_
  obtain ⟨patch, hresolve, _⟩ := (h f hf).resolve here
  rw [hresolve, Event.ofOutcome_ok]

/-- A piece that shows what is there is rendered as that. -/
theorem render_of_shows {item : Item} {piece : Piece} {bytes : List UInt8}
    (hpiece : PieceOf context item piece) (hlength : bytes.length = piece.span.size)
    (h : piece.layout.Shows final context.pointerBase bytes fun k =>
      k < bytes.length ∧ bytes[k]? ≠ some 0) :
    Patch.render piece.span.size (piece.layout.fixed ++
      PlacedField.patches final piece.span.offset context.pointerBase piece.fields) = bytes := by
  rw [← hlength]
  exact h.render hpiece.fields piece.span.offset

/-- A statement that is passed still says nothing in the end, either, and changes nothing. -/
theorem Sound.still {item : Item} (h : item.Sound context final)
    (hstill : item.passage.Still context final image) :
    item.emitted context final [] image.size = [] ∧ item.write context final [] image = image := by
  cases hp : item.piece with
  | none =>
    -- Nothing is written, and nothing was to be written.
    have hmisfit : item.passage.misfit? context.registry = none := by
      rw [Passage.misfit?, h.span_of_none hp]
      rfl
    simp only [emitted, write, hp, hmisfit, hstill.spoken, List.append_nil, and_self]
  | some piece =>
    have hpiece := h.pieceOf hp
    have hwrites := h.fits.writes
    rw [hp, Option.map_some] at hwrites
    obtain ⟨bytes, hread, hshows⟩ := hstill.written piece.span piece.layout hwrites
    obtain ⟨hlength, hin, hbytes⟩ := Image.of_read? hread
    -- What is there already lies in the image, and nothing is protected.
    have hcheck : checkWrite piece.span image.size [] = .ok () := by
      have hinside : ¬image.size < piece.span.interval.stop := Nat.not_lt.2 hin
      rw [checkWrite, if_neg hinside, List.find?_nil]
    have hfields : ∀ f ∈ piece.fields, f.toField.Shows final context.pointerBase bytes := fun f hf =>
      hshows.fields _ (hpiece.fields ▸ List.mem_map_of_mem hf)
    constructor
    · simp only [emitted, hp, hstill.spoken, hstill.alignment _ hpiece.span, events_of_shows hfields,
        checked, Option.toList_some, List.flatMap_singleton, hcheck, Event.ofOutcome_ok,
        List.append_nil]
    · simp only [write, hp, commit, hcheck, render_of_shows hpiece hlength hshows]
      exact Image.overwrite_eq_self fun k hk _ => hbytes k (hlength ▸ hk)

end Item

/-! ## Courses on which nothing happens -/

/-- With no constant waiting there is nothing to settle. -/
theorem Walk.settle_of_waiting {w : Walk} (h : w.waiting = #[]) :
    w.settle.symbols = w.symbols ∧ w.settleEvents = [] := by
  simp [settle, settleEvents, h, Symbols.settle_nil]

/-- A program of statements that are passed still: nothing is reported of them, they write what is
    there already, and no constant waits for its value. -/
structure Still (context : Context) (image : Image) (program : Program) : Prop where
  waiting : ((Walk.start context image {}).passAll context.registry program).waiting = #[]
  trail : ∀ p ∈ (Walk.start context image {}).trail context.registry program,
    p.Still context ((Walk.start context image {}).passAll context.registry program).symbols image

/-- The course of an assembly of such statements reports nothing and leaves the image alone. -/
theorem Still.course {program : Program} (h : Still context image program)
    (span? : Passage → Option Span)
    (hsound : (Course.along span? program context image).Sound context) :
    (Course.along span? program context image).twoPassEvents context image.size = [] ∧
      (Course.along span? program context image).twoPassImage context image = image := by
  obtain ⟨hsymbols, hsettle⟩ := Walk.settle_of_waiting h.waiting
  -- None of the statements protects anything.
  have hnone := List.filterMap_eq_nil_iff.2 fun p hp => (h.trail p hp).protection
  have hwalked : ((Walk.start context image {}).trail context.registry program).flatMap
      (fun p => p.naming ++ p.moving) = [] :=
    List.flatMap_eq_nil_iff.2 fun p hp => by rw [(h.trail p hp).naming, (h.trail p hp).moving]; rfl
  have hplace := placeTrail_of_still h.trail
  have hitems : ∀ item ∈ (Course.along span? program context image).items,
      item.emitted context ((Walk.start context image {}).passAll context.registry program).symbols
          [] image.size = [] ∧
        item.write context ((Walk.start context image {}).passAll context.registry program).symbols
          [] image = image := by
    intro item hitem
    have hpassage : item.passage ∈ (Course.along span? program context image).trail :=
      hsound.trail ▸ List.mem_map_of_mem hitem
    have hitem : item.Sound context
        ((Walk.start context image {}).passAll context.registry program).settle.symbols :=
      hsound.items item hitem
    rw [hsymbols] at hitem
    exact hitem.still (h.trail _ hpassage)
  have hwritten : ∀ items : List Item, items ⊆ (Course.along span? program context image).items →
      items.foldl (Item.write context
        ((Walk.start context image {}).passAll context.registry program).symbols []) image =
        image := by
    -- The items are written one after the other; none of them changes the image.
    intro items hsub
    induction items with
    | nil => rfl
    | cons item items ih =>
      rw [List.foldl_cons, (hitems item (hsub (.head _))).2]
      exact ih fun other hother => hsub (.tail _ hother)
  have hemitted := List.flatMap_eq_nil_iff.2 fun item hitem => (hitems item hitem).1
  have hfold := hwritten _ (List.Subset.refl _)
  -- Nothing waits and nothing is protected, so the final names are those of the walk.
  simp only [Course.along, hnone, hsymbols, List.filterMap_nil] at hemitted hfold
  constructor
  · simp only [Course.twoPassEvents, Course.along, hwalked, hsettle, hnone, hsymbols,
      List.filterMap_nil, hemitted, (hplace _).1, (hplace _).2]
    rfl
  · simp only [Course.twoPassImage, Course.along, hnone, hsymbols, List.filterMap_nil, hfold,
      (hplace _).1]
    rfl

end Assembly

/-- An assembly of a program whose statements are passed still has no effect. -/
theorem Engine.assemble_of_still {context : Assembly.Context} {program : Program}
    (hr : context.registry.WellFormed) (hs : ∀ st ∈ program, st.value.Sound context.registry)
    (h : Assembly.Still context image program) (engine : Engine) (log : Log) :
    engine.assemble program context image log = (image, log) := by
  have hcourse := Assembly.Course.sound_along (fun p => p.slot.span) image hr hs
  obtain ⟨hevents, himage⟩ := h.course (fun p => p.slot.span) hcourse
  have hwritten : engine.written program context image = image := by
    cases engine with
    | twoPass => exact himage
    | onePass =>
      rw [written, course_eq image hr hs onePass]
      exact (hcourse.twoPassImage_eq image).symm.trans himage
  have hreported : engine.events program context image = [] := by
    cases engine with
    | twoPass => exact hevents
    | onePass =>
      rw [events, course_eq image hr hs onePass]
      -- The one-pass engine reports the same events in another order, so it reports none.
      exact List.Perm.nil_eq (hevents ▸ hcourse.events_perm image.size) |>.symm
  rw [assemble_eq_conclude, hwritten, hreported, Assembly.conclude, Report.recordAll_nil,
    Assembly.Writing.finish, if_neg (Nat.lt_irrefl _)]

end CartScript
