import Mathlib.Algebra.BigOperators.Group.List.Basic
import Mathlib.Data.List.Perm.Basic
import CartScript.Proofs.Assembly.Course

/-!
# The engines agree

Whatever the one-pass engine finds out on its way, the two-pass engine finds out in its second pass:
names keep their values, so what was known early is the same in the end.  Fields that were filled in
early and fields that were filled in late lie apart, so the same bytes come out.  What is reported is
the same up to its order.
-/

namespace CartScript.Assembly

open OnePass (isOpen knownPatch? knownPatches knownEvents)

/-! ## Fields -/

section Fields

variable {early final : Symbols} {here base : UInt32}

/-- A field that is not left open is what it is in the end. -/
theorem knownPatch?_eq_resolve {f : PlacedField} (hf : f.toField.Sound)
    (hwithin : early.source.Within final.source)
    (hclosed : isOpen early here base f.toField = false) :
    knownPatch? early here base f.toField = (f.resolve final here base).map some := by
  unfold isOpen at hclosed
  unfold knownPatch? at hclosed ⊢
  unfold PlacedField.resolve
  cases hsource : f.source with
  | inline data element => simp [hsource] at hclosed
  | expr value =>
    have hvalue := hf.expr value hsource
    -- A fault stays a fault and a value stays the same value, whatever other names become known.
    rcases heval : value.eval early.source here with fault | (v | name)
    · simp only [heval, Symbols.resolve_of_fault hvalue hwithin heval]
      rfl
    · simp only [heval, Symbols.resolve_of_known hwithin heval]
    · simp [hsource, heval] at hclosed

variable {fields : List PlacedField} (hsound : ∀ f ∈ fields, f.toField.Sound)
  (hwithin : early.source.Within final.source)

include hsound hwithin

/-- The patches of the fields that are not left open, and what is reported of them. -/
theorem known_eq : knownPatches early here base (fields.map PlacedField.toField) =
      PlacedField.patches final here base
        (fields.filter fun f => !isOpen early here base f.toField) ∧
    ∀ position, knownEvents early position here base (fields.map PlacedField.toField) =
      PlacedField.events final position here base
        (fields.filter fun f => !isOpen early here base f.toField) := by
  induction fields with
  | nil => exact ⟨rfl, fun _ => rfl⟩
  | cons f fields ih =>
    obtain ⟨hf, hrest⟩ := List.forall_mem_cons.1 hsound
    have ih := ih hrest
    simp only [knownPatches, PlacedField.patches, knownEvents, PlacedField.events] at ih ⊢
    cases hopen : isOpen early here base f.toField with
    | true => simp [(OnePass.isOpen_iff early here base).1 hopen, hopen, ih]
    | false =>
      have hknown := knownPatch?_eq_resolve hf hwithin hopen
      cases hresolve : f.resolve final here base <;>
        simp [hknown, hopen, hresolve, ih, Except.map, Except.toOption]

end Fields

/-! ## Bytes -/

/-- The bytes of a field stand where the field does. -/
theorem PlacedField.interval_of_resolve {f : PlacedField} {symbols : Symbols} {here base : UInt32}
    {patch : Patch} (h : f.resolve symbols here base = .ok patch) :
    patch.interval = f.toField.interval := by
  have hencode {v : Int64} (h : f.encode v base = .ok patch) :
      patch.interval = f.toField.interval := by
    obtain ⟨bytes, hbytes, rfl⟩ := Except.map_eq_ok_iff.1 h
    simp [Patch.interval, Field.interval, Encoding.length_int hbytes]
  unfold resolve at h
  split at h
  · split at h
    · exact hencode h
    · simp at h
  · exact hencode h

/-- The patches of fields stand in some of their places. -/
theorem PlacedField.map_interval_patches (symbols : Symbols) (here base : UInt32)
    (fields : List PlacedField) :
    ((patches symbols here base fields).map Patch.interval).Sublist
      ((fields.map PlacedField.toField).map Field.interval) := by
  induction fields with
  | nil => simp [patches]
  | cons f fields ih =>
    simp only [patches, List.filterMap_cons, List.map_cons] at ih ⊢
    cases hresolve : f.resolve symbols here base with
    | error fault => exact ih.cons _
    | ok patch =>
      simp only [Except.toOption, List.map_cons, interval_of_resolve hresolve]
      exact ih.cons_cons _

/-! ## Items -/

namespace Item

/-- An item of a sound program, with names that keep their values to the end. -/
structure Sound (context : Context) (final : Symbols) (item : Item) : Prop where
  passage : item.passage.Sound context.registry
  fits : item.Fits context.registry
  within : item.passage.symbols.source.Within final.source

variable {context : Context} {final : Symbols} {item : Item}

/-- A statement without a piece writes nothing. -/
theorem Sound.span_of_none (h : item.Sound context final) (hp : item.piece = none) :
    item.passage.slot.span = none := by
  cases hspan : item.passage.slot.span with
  | none => rfl
  | some span =>
    obtain ⟨_, _, layout, hlayout, _⟩ := h.passage.layout span hspan
    have hwrites := h.fits.writes
    -- A sound statement that has a span has a layout, too, and so a piece.
    simp [Passage.writes?, hspan, hlayout, hp, Except.toOption] at hwrites

/-- The piece of a statement. -/
structure PieceOf (context : Context) (item : Item) (piece : Piece) : Prop where
  span : item.passage.slot.span = some piece.span
  layout : Layout.ofStatement item.passage.slot.statement.value piece.span.size context.registry =
    .ok piece.layout
  here : piece.span.offset = item.passage.slot.here
  neat : piece.layout.Neat piece.span.size
  fields : piece.fields.map PlacedField.toField = piece.layout.fields
  sound : ∀ f ∈ piece.fields, f.toField.Sound

theorem Sound.pieceOf (h : item.Sound context final) {piece : Piece} (hp : item.piece = some piece) :
    PieceOf context item piece := by
  have hwrites := h.fits.writes
  rw [hp, Option.map_some, Passage.writes?, Option.bind_eq_some_iff] at hwrites
  obtain ⟨span, hspan, hmap⟩ := hwrites
  obtain ⟨hhere, _, layout, hlayout, hneat, hsound⟩ := h.passage.layout span hspan
  simp only [hlayout, Except.toOption, Option.map_some, Option.some.injEq, Prod.mk.injEq] at hmap
  obtain ⟨rfl, rfl⟩ := hmap
  have hfields := h.fits.fields piece hp
  refine ⟨hspan, hlayout, hhere, hneat, hfields, fun f hf => hsound _ ?_⟩
  rw [← hfields]
  exact List.mem_map_of_mem hf

/-- The patches of a statement lie apart. -/
theorem PieceOf.disjoint {piece : Piece} (h : PieceOf context item piece) (symbols : Symbols)
    (base : UInt32) :
    Patch.Disjoint (piece.layout.fixed ++
      PlacedField.patches symbols piece.span.offset base piece.fields) := by
  have hsub := PlacedField.map_interval_patches symbols piece.span.offset base piece.fields
  rw [h.fields] at hsub
  -- Fields that cannot be resolved leave gaps, which does no harm.
  have happart := h.neat.apart.sublist (hsub.append_left (piece.layout.fixed.map Patch.interval))
  rw [← List.map_append, List.pairwise_map] at happart
  exact happart

/-- The patches of a statement are split into those that were known on the way and the open ones. -/
theorem Sound.patches_perm (h : item.Sound context final) {piece : Piece}
    (hp : item.piece = some piece) :
    (piece.layout.fixed ++
      PlacedField.patches final piece.span.offset context.pointerBase piece.fields).Perm
    (piece.layout.fixed ++
      knownPatches item.passage.symbols piece.span.offset context.pointerBase piece.layout.fields ++
      PlacedField.patches final piece.span.offset context.pointerBase (piece.fields.filter fun f =>
        isOpen item.passage.symbols piece.span.offset context.pointerBase f.toField)) := by
  have hpiece := h.pieceOf hp
  rw [← hpiece.fields, (known_eq hpiece.sound h.within).1, List.append_assoc]
  refine List.Perm.append_left _ (List.Perm.symm ?_)
  -- The library has the selected ones first.
  refine List.perm_append_comm.trans ?_
  rw [PlacedField.patches, PlacedField.patches, ← List.filterMap_append]
  exact (List.filter_append_perm _ _).filterMap _

/-- Both engines write the same bytes for a statement. -/
theorem write_eq_writeChunk (h : item.Sound context final) (protections : List Protection)
    (image : Image) :
    item.write context final protections image =
      item.writeChunk context final protections image := by
  cases hp : item.piece with
  | none => simp only [write, writeChunk, chunk?, hp, Option.map_none]
  | some piece =>
    simp only [write, writeChunk, chunk?, hp, Option.map_some, commit,
      Patch.render_perm (h.patches_perm hp) ((h.pieceOf hp).disjoint final context.pointerBase)]

/-- What is reported on the way of the bytes of a statement. -/
theorem Sound.emittedNow_eq (h : item.Sound context final) :
    item.passage.emittedNow context = item.piece.toList.flatMap fun piece =>
      item.passage.alignment context.registry piece.span ++
        knownEvents item.passage.symbols item.passage.position piece.span.offset
          context.pointerBase piece.layout.fields := by
  cases hp : item.piece with
  | none => simp [Passage.emittedNow, h.span_of_none hp]
  | some piece =>
    have hpiece := h.pieceOf hp
    simp [Passage.emittedNow, hpiece.span, hpiece.layout]

/-- What is reported of an assertion or a message is reported either on the way or in the end. -/
theorem Sound.spoken_eq (h : item.Sound context final) :
    item.passage.spoken final =
      item.passage.spokenNow ++ item.passage.spokenLater final := by
  have hsound := h.passage.statement
  unfold Passage.spoken Passage.spokenNow Passage.spokenLater Passage.openAssertion?
  cases hs : item.passage.slot.statement.value with
  | assertion condition =>
    have hcondition : condition.WellFormed := hsound.exprs condition (by simp [hs, Statement.exprs])
    rcases heval : condition.eval item.passage.symbols.source item.passage.slot.here with
      fault | (v | name)
    · simp [heval, Symbols.resolve_of_fault hcondition h.within heval, Except.bind]
    · simp [heval, Symbols.resolve_of_known h.within heval, Except.bind]
    · simp [heval]
  | _ => simp

/-- Both engines report the same of a statement, up to the order. -/
theorem Sound.events_perm (h : item.Sound context final) (protections : List Protection)
    (size : Nat) :
    List.Perm
      (item.passage.naming ++ item.passage.moving ++ item.emitted context final protections size)
      (item.passage.reportedNow context ++ item.filled context final ++
        item.passage.spokenLater final ++ item.checked protections size) := by
  rw [List.perm_iff_count]
  -- Each event is counted, so that the order of the parts does not matter.
  intro e
  simp only [emitted, Passage.reportedNow, h.emittedNow_eq, h.spoken_eq, List.count_append]
  cases hp : item.piece with
  | none =>
    simp only [filled, chunk?, hp, checked, Passage.misfit?, h.span_of_none hp, Option.bind_none,
      Option.map_none, Option.toList_none, List.flatMap_nil, List.count_nil]
    omega
  | some piece =>
    have hpiece := h.pieceOf hp
    -- The fields are reported in two parts by one engine, and in one by the other.
    have hfields : List.count e (PlacedField.events final item.passage.position piece.span.offset
          context.pointerBase piece.fields) =
        List.count e (knownEvents item.passage.symbols item.passage.position piece.span.offset
            context.pointerBase piece.layout.fields) +
          List.count e (item.filled context final) := by
      rw [← hpiece.fields, (known_eq hpiece.sound h.within).2, ← List.count_append]
      simp only [filled, chunk?, hp, Option.map_some, Option.toList_some, List.flatMap_singleton]
      refine List.Perm.count_eq (List.Perm.symm ?_) e
      refine List.perm_append_comm.trans ?_
      rw [PlacedField.events, PlacedField.events, ← List.flatMap_append]
      exact (List.filter_append_perm _ _).flatMap_right _
    simp only [Option.toList_some, List.flatMap_singleton, List.count_append, hfields]
    omega

end Item

/-! ## Courses -/

namespace Course

theorem map_passage_items (span? : Passage → Option Span) (program : Program) (context : Context)
    (image : Image) :
    (along span? program context image).items.map Item.passage =
      (along span? program context image).trail :=
  map_passage_placeTrail ..

/-- A course whose items are those of a sound program. -/
structure Sound (context : Context) (c : Course) : Prop where
  trail : c.items.map Item.passage = c.trail
  items : ∀ item ∈ c.items, item.Sound context c.symbols

/-- What a sound program promises about the course of its assembly. -/
theorem sound_along (span? : Passage → Option Span) {program : Program} {context : Context}
    (image : Image) (hr : context.registry.WellFormed)
    (hs : ∀ st ∈ program, st.value.Sound context.registry) :
    (along span? program context image).Sound context := by
  have htrail := map_passage_items span? program context image
  refine ⟨htrail, fun item hitem => ?_⟩
  have hpassage : item.passage ∈ (along span? program context image).trail := by
    rw [← htrail]
    exact List.mem_map_of_mem hitem
  obtain ⟨_, _, _, _, hwithin⟩ := Walk.mem_trail context.registry hpassage
  exact ⟨Walk.sound_of_mem_trail hr hs hpassage, fits_of_mem_placeTrail hitem,
    hwithin.trans (Symbols.settle_within _ _)⟩

variable {context : Context} {c : Course}

theorem Sound.twoPassImage_eq (h : c.Sound context) (image : Image) :
    c.twoPassImage context image = c.onePassImage context image := by
  unfold twoPassImage onePassImage
  congr 1
  exact List.foldl_ext _ _ _ fun current item hitem =>
    Item.write_eq_writeChunk (h.items item hitem) _ current

/-- Both engines report the same events, in another order. -/
theorem Sound.events_perm (h : c.Sound context) (size : Nat) :
    (c.twoPassEvents context size).Perm (c.onePassEvents context size) := by
  rw [List.perm_iff_count]
  intro e
  -- Every statement adds the same to both counts.
  have hitem : ∀ item ∈ c.items, _ := fun item hitem =>
    List.Perm.count_eq ((h.items item hitem).events_perm c.protections size) e
  simp only [twoPassEvents, onePassEvents, ← h.trail, List.flatMap_map, List.count_append,
    List.count_flatMap] at hitem ⊢
  have hsum := congrArg List.sum (List.map_congr_left hitem)
  simp only [List.sum_map_add] at hsum
  simp only [Function.comp_def, List.count_append, List.sum_map_add]
  omega

end Course

/-- Whether the image counts depends only on which events there are. -/
theorem conclude_of_perm (image : Image) (log : Log) (written : Image) {events others : List Event}
    (h : events.Perm others) :
    (conclude image log written events).1 = (conclude image log written others).1 ∧
      (log.FailsSince (conclude image log written events).2 ↔
        log.FailsSince (conclude image log written others).2) := by
  have hiff : (∃ e ∈ events, log.isFailure e.severity = true) ↔
      ∃ e ∈ others, log.isFailure e.severity = true := by
    simp only [h.mem_iff]
  refine ⟨?_, by rw [failsSince_conclude, failsSince_conclude, hiff]⟩
  simp only [conclude, Writing.finish, Report.errorCount_lt_recordAll_iff, hiff]

end CartScript.Assembly

namespace CartScript.Engine

open Assembly

/-- The arguments of the statements of a sound program fit, so both engines know of their bytes. -/
theorem course_eq {program : Program} {context : Assembly.Context} (image : Image)
    (hr : context.registry.WellFormed) (hs : ∀ st ∈ program, st.value.Sound context.registry)
    (engine : Engine) :
    engine.course program context image = twoPass.course program context image := by
  cases engine with
  | twoPass => rfl
  | onePass =>
    have hspans : ((Walk.start context image {}).trail context.registry program).filterMap
          (fun p => (p.writes? context.registry).map Prod.fst) =
        ((Walk.start context image {}).trail context.registry program).filterMap
          (fun p => p.slot.span) := by
      refine List.filterMap_congr fun p hp => ?_
      cases hspan : p.slot.span with
      | none => simp [Passage.writes?, hspan]
      | some span =>
        obtain ⟨_, _, layout, hlayout, _⟩ := (Walk.sound_of_mem_trail hr hs hp).layout span hspan
        simp [Passage.writes?, hspan, hlayout, Except.toOption]
    simp only [course, Course.along, hspans]

/-- Both engines leave the same image, and one of them reports a failure if and only if the other
    does. -/
theorem assemble_agree {registry : Registry} (hr : registry.Loaded) {program : Program}
    (hp : program.Parsed registry) (context : Assembly.Context) (hc : context.registry = registry)
    (image : Image) (log : Log) :
    (twoPass.assemble program context image log).1 = (onePass.assemble program context image log).1 ∧
      (log.FailsSince (twoPass.assemble program context image log).2 ↔
        log.FailsSince (onePass.assemble program context image log).2) := by
  subst hc
  have hsound := hp.sound hr.wellFormed
  have hcourse : (twoPass.course program context image).Sound context :=
    Course.sound_along _ image hr.wellFormed hsound
  have hwritten : twoPass.written program context image = onePass.written program context image := by
    rw [written, written, course_eq image hr.wellFormed hsound onePass]
    exact hcourse.twoPassImage_eq image
  have hevents : (twoPass.events program context image).Perm
      (onePass.events program context image) := by
    rw [events, events, course_eq image hr.wellFormed hsound onePass]
    exact hcourse.events_perm image.size
  rw [assemble_eq_conclude, assemble_eq_conclude, hwritten]
  exact conclude_of_perm image log _ hevents

/-- The engines agree on a program with an open name and with data in free space. -/
theorem assemble_agree_sample :
    Sample.registry.Loaded ∧ Sample.program.Parsed Sample.registry ∧
      let context : Assembly.Context := { registry := Sample.registry, origin := 0x10 }
      let image : Image := Array.replicate 64 0xFF
      (twoPass.assemble Sample.program context image {}).1 =
          (onePass.assemble Sample.program context image {}).1 ∧
        (Log.FailsSince {} (twoPass.assemble Sample.program context image {}).2 ↔
          Log.FailsSince {} (onePass.assemble Sample.program context image {}).2) :=
  ⟨Sample.loaded, Sample.parsed,
    assemble_agree Sample.loaded Sample.parsed { registry := Sample.registry, origin := 0x10 } rfl
      (Array.replicate 64 0xFF) {}⟩

end CartScript.Engine
