import CartScript.Proofs.Assembly.Diagnostics
import CartScript.Proofs.Assembly.Settled
import CartScript.Proofs.Job

/-!
# Segments change places

Names may be used before they are defined, so it should not matter in which order the segments of a
program stand.  An assembly fails or succeeds in either order, and as long as the segments write
different bytes, the same image comes out.
-/

namespace CartScript

namespace Assembly

open TwoPass (Slot)

/-! ## Bytes -/

variable {ps : List Protection} {α β : Type} {ys : List α} {f : β → α → β}

/-- A step that commutes with those of a list commutes with the whole list. -/
theorem foldl_comm_of_mem {x : α} (h : ∀ y ∈ ys, ∀ b, f (f b x) y = f (f b y) x) (b : β) :
    ys.foldl f (f b x) = f (ys.foldl f b) x := by
  induction ys generalizing b with
  | nil => rfl
  | cons y ys ih =>
    obtain ⟨hy, hys⟩ := List.forall_mem_cons.1 h
    rw [List.foldl_cons, hy, ih hys, List.foldl_cons]

theorem foldl_foldl_comm {xs : List α} (h : ∀ x ∈ xs, ∀ y ∈ ys, ∀ b, f (f b x) y = f (f b y) x)
    (b : β) : ys.foldl f (xs.foldl f b) = xs.foldl f (ys.foldl f b) := by
  induction xs generalizing b with
  | nil => rfl
  | cons x xs ih =>
    obtain ⟨hx, hxs⟩ := List.forall_mem_cons.1 h
    rw [List.foldl_cons, ih hxs, foldl_comm_of_mem hx, List.foldl_cons]

/-- Bytes that share no place are written in either order. -/
theorem commit_comm {a b : Span} {patches others : List Patch}
    (h : ∀ i, a.interval.contains i = true → b.interval.contains i = false) (image : Image) :
    commit ps b others (commit ps a patches image) =
      commit ps a patches (commit ps b others image) := by
  have hover : (image.overwrite a.offset.toNat (Patch.render a.size patches)).overwrite
        b.offset.toNat (Patch.render b.size others) =
      (image.overwrite b.offset.toNat (Patch.render b.size others)).overwrite
        a.offset.toNat (Patch.render a.size patches) := by
    refine Image.overwrite_comm image fun i hi => ?_
    rw [Patch.length_render] at hi ⊢
    exact Interval.contains_eq_false_iff.1 (h i (Interval.contains_iff.2 hi))
  -- Whether bytes may be written depends on the size of the image only, which stays.
  simp only [commit]
  cases ha : checkWrite a image.size ps <;> cases hb : checkWrite b image.size ps <;>
    simp [ha, hb, hover]

/-- Statements that write different bytes are written in either order. -/
theorem Item.foldl_write_comm {context : Context} {symbols : Symbols} {xs ys : List Item}
    (h : ∀ x ∈ xs, ∀ y ∈ ys, ∀ a, x.piece = some a → ∀ b, y.piece = some b →
      ∀ i, a.span.interval.contains i = true → b.span.interval.contains i = false) (image : Image) :
    ys.foldl (write context symbols ps) (xs.foldl (write context symbols ps) image) =
      xs.foldl (write context symbols ps) (ys.foldl (write context symbols ps) image) := by
  refine foldl_foldl_comm (fun x hx y hy image => ?_) image
  cases hxp : x.piece with
  | none => simp only [write, hxp]
  | some a =>
    cases hyp : y.piece with
    | none => simp only [write, hyp]
    | some b =>
      simp only [write, hxp, hyp]
      exact commit_comm (h x hx y hy a hxp b hyp) image

/-- A statement writes the bytes at its place. -/
theorem TwoPass.Slot.span_of_piece {registry : Registry} {slot : Slot} {piece : Piece}
    (h : (slot.item registry).piece = some piece) : slot.span = some piece.span := by
  obtain ⟨_, hwrites, rfl⟩ := Option.map_eq_some_iff.1 h
  obtain ⟨span, hspan, hmap⟩ := Option.bind_eq_some_iff.1 hwrites
  obtain ⟨layout, _, rfl⟩ := Option.map_eq_some_iff.1 hmap
  exact hspan

/-! ## Two segments -/

/-- The bytes that the statements of a program write, if it stands alone. -/
def spans (context : Context) (image : Image) (program : Program) : List Span :=
  ((Walk.start context image {}).trail context.registry program).filterMap fun p => p.slot.span

namespace Segment

variable {context : Context} {image : Image} {log : Log} {a b : Segment context.registry}

/-- A segment writes the same bytes wherever it stands. -/
theorem spans_eq {xs : List Slot} {last : Cursor}
    (h : a.slots? context.pointerBase image.size = some (xs, last)) :
    spans context image a.program = xs.filterMap Slot.span := by
  have hslots := a.slots?_program context.origin context.pointerBase image.size
  rw [h] at hslots
  obtain ⟨htrail, _⟩ := Walk.trail_of_slots? (w := Walk.start context image {}) a.movable_program
    hslots
  have hspans : spans context image a.program =
      (((Walk.start context image {}).trail context.registry a.program).map
        Passage.slot).filterMap Slot.span := by rw [List.filterMap_map]; rfl
  rw [hspans, htrail]
  rfl

theorem movable_append (a b : Segment context.registry) :
    ∀ st ∈ a.program ++ b.program, st.value.Movable context.registry :=
  List.forall_mem_append.2 ⟨a.movable_program, b.movable_program⟩

/-- Without a failure, both segments have their places. -/
theorem exists_slots? {c : Course}
    (hc : c = Course.along (fun p => p.slot.span) (a.program ++ b.program) context image)
    (h : log.Accepts (c.twoPassEvents context image.size)) :
    ∃ xs ys lastX lastY, a.slots? context.pointerBase image.size = some (xs, lastX) ∧
      b.slots? context.pointerBase image.size = some (ys, lastY) := by
  obtain ⟨placed, hplaced⟩ := Walk.exists_slots? (movable_append a b) (Course.moving_of_accepts hc h)
  obtain ⟨⟨⟨xs, lastX⟩, hx⟩, ⟨ys, lastY⟩, hy⟩ := of_slots?_append a b hplaced
  exact ⟨xs, ys, lastX, lastY, hx, hy⟩

/-- The head of a segment protects nothing. -/
theorem requests_exchange (a b : Segment context.registry) {i j k l : UInt32} {xs ys : List Slot} :
    ((a.headSlot i :: xs ++ b.headSlot j :: ys).filterMap Slot.protection?).Perm
      ((b.headSlot k :: ys ++ a.headSlot l :: xs).filterMap Slot.protection?) := by
  rw [List.filterMap_append, List.filterMap_append]
  exact List.perm_append_comm

/-- The head of a segment writes nothing. -/
theorem write_headSlot (here : UInt32) (symbols : Symbols) (ps : List Protection) (image : Image) :
    Item.write context symbols ps image ((a.headSlot here).item context.registry) = image := rfl

variable (ha : ∀ st ∈ a.program, st.value.Sound context.registry)
  (hb : ∀ st ∈ b.program, st.value.Sound context.registry)

include ha hb

/-- What does not fail in one order does not fail in the other. -/
theorem accepts_exchange {forth back : Course}
    (hforth : forth = Course.along (fun p => p.slot.span) (a.program ++ b.program) context image)
    (hback : back = Course.along (fun p => p.slot.span) (b.program ++ a.program) context image)
    (h : log.Accepts (forth.twoPassEvents context image.size)) :
    log.Accepts (back.twoPassEvents context image.size) := by
  obtain ⟨xs, ys, lastX, lastY, hx, hy⟩ := exists_slots? hforth h
  have hsettled := Course.settled_of_accepts hforth (movable_append a b)
    (slots?_append a b context.origin hx hy) (List.forall_mem_append.2 ⟨ha, hb⟩) h
  exact Course.accepts_of_settled hback (movable_append b a)
    (slots?_append b a context.origin hy hx) (List.forall_mem_append.2 ⟨hb, ha⟩) hsettled.exchange

/-- The same bytes come out in either order, if the segments write different ones. -/
theorem image_exchange {forth back : Course}
    (hforth : forth = Course.along (fun p => p.slot.span) (a.program ++ b.program) context image)
    (hback : back = Course.along (fun p => p.slot.span) (b.program ++ a.program) context image)
    (h : log.Accepts (forth.twoPassEvents context image.size))
    (hdisjoint : ∀ x ∈ spans context image a.program, ∀ y ∈ spans context image b.program,
      ∀ i, x.interval.contains i = true → y.interval.contains i = false) :
    forth.twoPassImage context image = back.twoPassImage context image := by
  obtain ⟨xs, ys, lastX, lastY, hx, hy⟩ := exists_slots? hforth h
  have hslots := slots?_append a b context.origin hx hy
  have hslots' := slots?_append b a context.origin hy hx
  have hsettled := Course.settled_of_accepts hforth (movable_append a b) hslots
    (List.forall_mem_append.2 ⟨ha, hb⟩) h
  have hsettled' := Course.settled_of_accepts hback (movable_append b a) hslots'
    (List.forall_mem_append.2 ⟨hb, ha⟩) (accepts_exchange ha hb hforth hback h)
  -- Both orders have the same solution, so the same bytes are protected, and a statement writes the
  -- same.
  have hsource : forth.symbols.source = back.symbols.source :=
    hsettled.exchange.names.unique hsettled'.names
  have hwrite : Item.write context back.symbols (protectionsOf context back.symbols
        (b.headSlot context.origin :: ys ++ a.headSlot lastY.offset :: xs)) =
      Item.write context forth.symbols (protectionsOf context forth.symbols
        (a.headSlot context.origin :: xs ++ b.headSlot lastX.offset :: ys)) :=
    funext₂ fun image item => Item.write_congr hsource.symm
      (protectionsOf_congr hsource.symm (requests_exchange b a)) item image
  rw [Course.twoPassImage_of_slots? hforth (movable_append a b) hslots,
    Course.twoPassImage_of_slots? hback (movable_append b a) hslots', hwrite]
  simp only [List.map_append, List.map_cons, List.foldl_append, List.foldl_cons, write_headSlot]
  refine Item.foldl_write_comm (fun x hx' y hy' p hp q hq => ?_) image
  obtain ⟨slot, hslot, rfl⟩ := List.mem_map.1 hx'
  obtain ⟨other, hother, rfl⟩ := List.mem_map.1 hy'
  refine hdisjoint p.span ?_ q.span ?_
  · rw [spans_eq hx]
    exact List.mem_filterMap.2 ⟨slot, hslot, Slot.span_of_piece hp⟩
  · rw [spans_eq hy]
    exact List.mem_filterMap.2 ⟨other, hother, Slot.span_of_piece hq⟩

end Segment

end Assembly

namespace Engine

open Assembly

/-- An assembly fails if and only if one of its events does. -/
theorem failsSince_assemble_iff {program : Program} {context : Assembly.Context} {image : Image}
    (hr : context.registry.WellFormed) (hs : ∀ st ∈ program, st.value.Sound context.registry)
    (engine : Engine) (log : Log) :
    log.FailsSince (engine.assemble program context image log).2 ↔
      ¬ log.Accepts ((twoPass.course program context image).twoPassEvents context image.size) := by
  have hperm : (twoPass.events program context image).Perm (engine.events program context image) := by
    cases engine with
    | twoPass => exact .refl _
    | onePass => exact events_perm image hr hs
  rw [assemble_eq_conclude, failsSince_conclude]
  simp only [← hperm.mem_iff, Log.Accepts, not_forall, Bool.not_eq_false, exists_prop]
  rfl

/-- Two segments change places: an assembly fails in one order if and only if it does in the other,
    and if the segments write different bytes, the same image comes out. -/
theorem assemble_exchange {registry : Registry} (hr : registry.Loaded) (first second : Segment registry)
    (hfirst : Program.Parsed registry first.program)
    (hsecond : Program.Parsed registry second.program) (context : Assembly.Context)
    (hc : context.registry = registry) (image : Image) (engine : Engine) (log : Log) :
    let forth := engine.assemble (first.program ++ second.program) context image log
    let back := engine.assemble (second.program ++ first.program) context image log
    (log.FailsSince forth.2 ↔ log.FailsSince back.2) ∧
      ((∀ a ∈ spans context image first.program, ∀ b ∈ spans context image second.program,
        ∀ i, a.interval.contains i = true → b.interval.contains i = false) →
          forth.1 = back.1) := by
  intro forth back
  subst hc
  have hwell := hr.wellFormed
  have ha := hfirst.sound hwell
  have hb := hsecond.sound hwell
  have hab := List.forall_mem_append.2 ⟨ha, hb⟩
  have hba := List.forall_mem_append.2 ⟨hb, ha⟩
  have hiff : log.FailsSince forth.2 ↔ log.FailsSince back.2 := by
    rw [failsSince_assemble_iff hwell hab, failsSince_assemble_iff hwell hba, not_iff_not]
    exact ⟨Segment.accepts_exchange ha hb rfl rfl, Segment.accepts_exchange hb ha rfl rfl⟩
  refine ⟨hiff, fun hdisjoint => ?_⟩
  by_cases hfails : log.FailsSince forth.2
  · -- A failure leaves the image as it was.
    have hkept {program : Program}
        (h : log.FailsSince (engine.assemble program context image log).2) :
        (engine.assemble program context image log).1 = image := by
      rw [assemble_eq_conclude] at h ⊢
      exact (conclude_of_failure (failsSince_conclude.1 h)).1
    exact (hkept hfails).trans (hkept (hiff.1 hfails)).symm
  · have haccepts := hfails
    rw [failsSince_assemble_iff hwell hab, not_not] at haccepts
    have hforth := (of_not_failsSince hwell hab hfails).1
    have hback := (of_not_failsSince hwell hba (mt hiff.2 hfails)).1
    exact hforth.trans ((Segment.image_exchange ha hb rfl rfl haccepts hdisjoint).trans hback.symm)

end Engine

namespace Sample

/-- A segment whose address, constant and assertion depend on names of another one. -/
def north : Assembly.Segment registry where
  position := ⟨"north", 1, 1⟩
  target := 0x10
  body :=
    [⟨⟨"north", 2, 1⟩, .label "gate"⟩,
      ⟨⟨"north", 3, 1⟩, .code 0 [.expr ⟨[.label "harbour"]⟩]⟩,
      ⟨⟨"north", 4, 1⟩, .constant "total" ⟨[.label "size", .number 2, .binary .plus]⟩⟩,
      ⟨⟨"north", 5, 1⟩, .assertion ⟨[.label "total", .number 6, .binary .minus]⟩⟩]
  movable := by decide

theorem north_parsed : Program.Parsed registry north.program := by
  have h : (Script.parse
      ⟨"north", Utf8.encode
        "ORG 0x10\ngate:\nTALK(harbour)\ntotal = size + 2\nASSERT total - 6\n", none⟩
      { registry } []).outcome = .ok north.program := by
    decide +kernel
  exact ⟨_, _, _, rfl, h⟩

/-- The other segment, whose address, number and protection depend on names of the first. -/
def south : Assembly.Segment registry where
  position := ⟨"south", 1, 1⟩
  target := 0x30
  body :=
    [⟨⟨"south", 2, 1⟩, .label "harbour"⟩,
      ⟨⟨"south", 3, 1⟩, .code 0 [.expr ⟨[.label "gate"]⟩]⟩,
      ⟨⟨"south", 4, 1⟩, .constant "size" ⟨[.label "quay", .label "harbour", .binary .minus]⟩⟩,
      ⟨⟨"south", 5, 1⟩, .label "quay"⟩,
      ⟨⟨"south", 6, 1⟩, .data 1 [⟨[.label "total"]⟩]⟩,
      ⟨⟨"south", 7, 1⟩, .protect ⟨[.number 0]⟩ (some ⟨[.label "gate"]⟩)⟩]
  movable := by decide

theorem south_parsed : Program.Parsed registry south.program := by
  have h : (Script.parse
      ⟨"south", Utf8.encode
        "ORG 0x30\nharbour:\nTALK(gate)\nsize = quay - harbour\nquay:\nBYTE total\nPROTECT 0, gate\n",
        none⟩
      { registry } []).outcome = .ok south.program := by
    decide +kernel
  exact ⟨_, _, _, rfl, h⟩

end Sample

namespace Engine

open Assembly

/-- Two segments that refer to each other are assembled in either order. -/
theorem assemble_exchange_ports :
    Sample.registry.Loaded ∧ Program.Parsed Sample.registry Sample.north.program ∧
      Program.Parsed Sample.registry Sample.south.program ∧
      let context : Assembly.Context := { registry := Sample.registry }
      let image : Image := Array.replicate 64 0xFF
      let forth := onePass.assemble (Sample.north.program ++ Sample.south.program) context image {}
      let back := onePass.assemble (Sample.south.program ++ Sample.north.program) context image {}
      ¬ Log.FailsSince {} forth.2 ∧ ¬ Log.FailsSince {} back.2 ∧ forth.1 = back.1 := by
  have hexchange := assemble_exchange Sample.loaded Sample.north Sample.south Sample.north_parsed
    Sample.south_parsed { registry := Sample.registry } rfl (Array.replicate 64 0xFF) onePass {}
  have hok : ¬ Log.FailsSince {} (onePass.assemble (Sample.north.program ++ Sample.south.program)
      { registry := Sample.registry } (Array.replicate 64 0xFF) {}).2 := by decide +kernel
  have hnorth : spans { registry := Sample.registry } (Array.replicate 64 0xFF)
      Sample.north.program = [⟨0x10, 8⟩] := by decide +kernel
  have hsouth : spans { registry := Sample.registry } (Array.replicate 64 0xFF)
      Sample.south.program = [⟨0x30, 8⟩, ⟨0x38, 1⟩] := by decide +kernel
  refine ⟨Sample.loaded, Sample.north_parsed, Sample.south_parsed, hok, mt hexchange.1.2 hok,
    hexchange.2 ?_⟩
  rw [hnorth, hsouth]
  -- The first segment ends before the second one starts.
  refine List.forall_mem_singleton.2 fun b hb i hi => Interval.contains_eq_false_iff.2 (.inl ?_)
  refine Nat.lt_of_lt_of_le (Interval.contains_iff.1 hi).2 ?_
  revert b
  decide

end Engine

end CartScript
