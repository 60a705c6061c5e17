import CartScript.Proofs.Assembly.Naming
import CartScript.Proofs.Assembly.Segments

/-!
# Statements at their places

Once it is known where movable statements stand, whether an assembly of them fails is a matter of
which statements there are, not of their order: the values of names are the solution of the
definitions, and with these values each statement is looked at by itself.
-/

namespace CartScript

/-! ## Events that do not fail -/

/-- None of the events is a failure to a log. -/
def Log.Accepts (log : Log) (events : List Event) : Prop :=
  ∀ e ∈ events, log.isFailure e.severity = false

namespace Log

variable {log : Log}

@[simp]
theorem accepts_nil : log.Accepts [] := by simp [Accepts]

@[simp]
theorem accepts_append {xs ys : List Event} :
    log.Accepts (xs ++ ys) ↔ log.Accepts xs ∧ log.Accepts ys := List.forall_mem_append

@[simp]
theorem accepts_flatMap {α : Type} {l : List α} {f : α → List Event} :
    log.Accepts (l.flatMap f) ↔ ∀ a ∈ l, log.Accepts (f a) := List.forall_mem_flatMap

/-- A fault is a failure to every log. -/
@[simp]
theorem accepts_ofOutcome {α : Type} {position : Position} {x : Except AssembleFault α} :
    log.Accepts (Event.ofOutcome position x) ↔ x.toOption.isSome = true := by
  cases x <;> simp [Accepts, Event.ofOutcome, Event.severity, isFailure, Except.toOption]

@[simp]
theorem accepts_faults {complaints : List Symbols.Complaint} :
    log.Accepts (complaints.map fun c => .fault c.position c.value) ↔ complaints = [] := by
  cases complaints <;> simp [Accepts, Event.severity, isFailure]

end Log

namespace Assembly

open TwoPass (Slot)
open SymbolSource (Solution)

/-! ## Names with the same values

Where a name is used first is a part of the names, too, but matters only for the text of faults. -/

section SameValues

variable {s t : Symbols} (h : s.source = t.source)

include h

theorem toOption_resolve_congr (e : Expr) (here : UInt32) :
    (s.resolve e here).toOption = (t.resolve e here).toOption := by
  simp only [Symbols.resolve, h]
  cases e.resolve t.source here <;> rfl

theorem ProtectionRequest.toOption_resolve_congr (request : ProtectionRequest) (base : UInt32) :
    (request.resolve s base).toOption = (request.resolve t base).toOption := by
  have hstart := Assembly.toOption_resolve_congr h request.start request.here
  simp only [ProtectionRequest.resolve, Protection.resolve, bind, Except.toOption_bind, hstart]
  cases request.stop with
  | none => rfl
  | some stop => simp only [Except.toOption_bind, Assembly.toOption_resolve_congr h stop]

theorem PlacedField.toOption_resolve_congr (f : PlacedField) (here base : UInt32) :
    (f.resolve s here base).toOption = (f.resolve t here base).toOption := by
  unfold PlacedField.resolve
  cases f.source with
  | inline data element => rfl
  | expr value =>
    have hvalue := Assembly.toOption_resolve_congr h value here
    cases hs : s.resolve value here <;> cases ht : t.resolve value here <;>
      simp_all [Except.toOption]

theorem PlacedField.patches_congr (here base : UInt32) (fields : List PlacedField) :
    PlacedField.patches s here base fields = PlacedField.patches t here base fields :=
  List.filterMap_congr fun f _ => f.toOption_resolve_congr h here base

variable {context : Context} {ps qs : List Protection} (hprotections : ∀ p, p ∈ ps ↔ p ∈ qs)

include hprotections

omit h in
theorem checkWrite_congr (span : Span) (size : Nat) :
    (checkWrite span size ps).toOption = (checkWrite span size qs).toOption := by
  have hiff : checkWrite span size ps = .ok () ↔ checkWrite span size qs = .ok () := by
    simp only [checkWrite_eq_ok_iff, hprotections]
  cases hp : checkWrite span size ps <;> cases hq : checkWrite span size qs <;>
    simp_all [Except.toOption]

/-- For `write`, only the values of names matter, and which bytes are protected. -/
theorem Item.write_congr (item : Item) (image : Image) :
    item.write context s ps image = item.write context t qs image := by
  unfold Item.write
  split
  · rfl
  · rename_i piece hpiece
    have hcheck := checkWrite_congr hprotections piece.span image.size
    rw [PlacedField.patches_congr h, commit, commit]
    cases hp : checkWrite piece.span image.size ps <;>
      cases hq : checkWrite piece.span image.size qs <;> simp_all [Except.toOption]

theorem Item.accepts_emitted_congr {log : Log} (item : Item) (size : Nat) :
    log.Accepts (item.emitted context s ps size) ↔ log.Accepts (item.emitted context t qs size) := by
  -- What assertions say depends on values only, and messages say the same anyway.
  have hspoken : log.Accepts (item.passage.spoken s) ↔ log.Accepts (item.passage.spoken t) := by
    unfold Passage.spoken
    split
    · simp only [Log.accepts_ofOutcome, Except.toOption_bind, Assembly.toOption_resolve_congr h]
    · rfl
    · rfl
  simp only [Item.emitted, Log.accepts_append, hspoken]
  cases item.piece with
  | none => cases item.passage.misfit? context.registry <;> rfl
  | some piece =>
    simp only [Item.checked, PlacedField.events, Log.accepts_append, Log.accepts_flatMap,
      Log.accepts_ofOutcome, PlacedField.toOption_resolve_congr h, checkWrite_congr hprotections]

end SameValues

/-! ## Statements at their places -/

/-- What a statement without data in free space writes at its place. -/
def TwoPass.Slot.item (registry : Registry) (slot : Slot) : Item :=
  let passage : Passage := { slot, symbols := {}, naming := [], moving := [] }
  { passage, piece := passage.piece? registry }

/-- The bytes that statements protect. -/
def protectionsOf (context : Context) (symbols : Symbols) (slots : List Slot) : List Protection :=
  (slots.filterMap Slot.protection?).filterMap fun request =>
    (request.resolve symbols context.pointerBase).toOption

/-- What it takes to assemble statements at given places without a failure: their definitions have a
    solution, and with the values of names nothing fails. -/
structure Settled (context : Context) (size : Nat) (log : Log) (slots : List Slot)
    (symbols : Symbols) : Prop where
  names : Solution (slots.filterMap Slot.definition?) symbols.source
  requests : ∀ request ∈ slots.filterMap Slot.protection?,
    (request.resolve symbols context.pointerBase).toOption.isSome = true
  emitted : ∀ slot ∈ slots, log.Accepts ((slot.item context.registry).emitted context symbols
    (protectionsOf context symbols slots) size)

section Settled

variable {context : Context} {size : Nat} {log : Log} {slots others : List Slot} {s t : Symbols}

theorem protectionsOf_congr (h : s.source = t.source)
    (hrequests : (slots.filterMap Slot.protection?).Perm (others.filterMap Slot.protection?))
    (p : Protection) : p ∈ protectionsOf context s slots ↔ p ∈ protectionsOf context t others := by
  simp only [protectionsOf, ProtectionRequest.toOption_resolve_congr h]
  exact (hrequests.filterMap _).mem_iff

/-- Only the values of names matter. -/
theorem Settled.congr (h : Settled context size log slots s) (hsource : s.source = t.source) :
    Settled context size log slots t where
  names := hsource ▸ h.names
  requests request hrequest := by
    rw [← request.toOption_resolve_congr hsource]
    exact h.requests request hrequest
  emitted slot hslot :=
    (Item.accepts_emitted_congr hsource (protectionsOf_congr hsource (.refl _)) _ _).1
      (h.emitted slot hslot)

/-- The order of statements does not matter. -/
theorem Settled.of_perm (h : Settled context size log slots s) (hperm : slots.Perm others) :
    Settled context size log others s where
  names := h.names.of_perm (hperm.filterMap _)
  requests request hrequest := h.requests request ((hperm.filterMap _).mem_iff.2 hrequest)
  emitted slot hslot :=
    (Item.accepts_emitted_congr rfl (protectionsOf_congr rfl (hperm.filterMap _)) _ _).1
      (h.emitted slot (hperm.mem_iff.2 hslot))

/-- The statement at the head of a segment does nothing but set the offset. -/
theorem settled_headSlot {registry : Registry} (a : Segment registry) (here : UInt32) :
    Settled context size log (a.headSlot here :: slots) s ↔ Settled context size log slots s := by
  have hemitted (ps : List Protection) :
      ((a.headSlot here).item context.registry).emitted context s ps size = [] := rfl
  constructor
  · rintro ⟨hnames, hrequests, hslots⟩
    exact ⟨hnames, hrequests, (List.forall_mem_cons.1 hslots).2⟩
  · rintro ⟨hnames, hrequests, hslots⟩
    refine ⟨hnames, hrequests, List.forall_mem_cons.2 ⟨?_, hslots⟩⟩
    rw [hemitted]
    exact Log.accepts_nil

/-- Two segments change places. -/
theorem Settled.exchange {registry : Registry} {a b : Segment registry} {i j k l : UInt32}
    {xs ys : List Slot}
    (h : Settled context size log (a.headSlot i :: xs ++ b.headSlot j :: ys) s) :
    Settled context size log (b.headSlot k :: ys ++ a.headSlot l :: xs) s := by
  -- Without their heads, the segments are only permuted.
  have hbodies : Settled context size log (xs ++ ys) s := by
    rw [← settled_headSlot b j, ← settled_headSlot a i]
    exact h.of_perm (.cons _ List.perm_middle)
  have hback := hbodies.of_perm List.perm_append_comm
  rw [← settled_headSlot a l, ← settled_headSlot b k] at hback
  exact hback.of_perm (.cons _ List.perm_middle.symm)

end Settled

/-! ## Courses -/

namespace Course

variable {program : Program} {context : Context} {image : Image} {log : Log} {slots : List Slot}
  {last : Cursor} {c : Course} (hc : c = along (fun p => p.slot.span) program context image)
  (hm : ∀ st ∈ program, st.value.Movable context.registry)
  (hslots : slots? context.registry program (Walk.start context image {}).cursor =
    some (slots, last))

include hm hslots

/-- The definitions of movable statements in terms of their places. -/
theorem definitions_of_slots? :
    (Walk.start context image {}).definitions context.registry program =
      slots.filterMap Slot.definition? := by
  rw [← (Walk.trail_of_slots? hm hslots).1, List.filterMap_map]
  rfl

include hc

/-- The course of movable statements in terms of their places. -/
theorem of_slots? :
    c.trail.map Passage.slot = slots ∧ (∀ p ∈ c.trail, p.moving = []) ∧
      c.items = c.trail.map (fun p => ⟨p, p.piece? context.registry⟩) ∧ c.blocks = [] ∧
      c.protections = protectionsOf context c.symbols slots ∧
      c.preparing = ((Walk.start context image {}).passAll context.registry program).settleEvents ++
        (slots.filterMap Slot.protection?).flatMap fun request =>
          Event.ofOutcome request.position (request.resolve c.symbols context.pointerBase) := by
  subst hc
  obtain ⟨htrail, hmoving⟩ := Walk.trail_of_slots? hm hslots
  have hmovable : ∀ p ∈ (Walk.start context image {}).trail context.registry program,
      p.slot.statement.value.Movable context.registry := by
    intro p hp
    obtain ⟨v, statement, hstatement, rfl, _⟩ := Walk.mem_trail context.registry hp
    exact hm statement hstatement
  have hrequests : ((Walk.start context image {}).trail context.registry program).filterMap
      (fun p => p.slot.protection?) = slots.filterMap Slot.protection? := by
    rw [← htrail, List.filterMap_map]
    rfl
  refine ⟨htrail, hmoving, ?_, ?_, ?_, ?_⟩
  · simp only [along, (placeTrail_of_movable hmovable _).1]
  · simp only [along, (placeTrail_of_movable hmovable _).1]
    rfl
  · simp only [along, hrequests]
    rfl
  · simp only [along, hrequests, (placeTrail_of_movable hmovable _).2, List.append_nil]

/-- The image that comes out of movable statements. -/
theorem twoPassImage_of_slots? (image : Image) :
    c.twoPassImage context image = (slots.map (Slot.item context.registry)).foldl
      (Item.write context c.symbols (protectionsOf context c.symbols slots)) image := by
  obtain ⟨htrail, _, hitems, hblocks, hprotections, _⟩ := of_slots? hc hm hslots
  rw [twoPassImage, hblocks, hitems, hprotections, List.foldl_nil]
  -- Only the places that are written are to be those of the trail, not the protected ones.
  generalize protectionsOf context c.symbols slots = ps
  rw [← htrail, List.map_map, List.foldl_map, List.foldl_map]
  rfl

/-- When nothing fails in an assembly of movable statements. -/
theorem accepts_twoPassEvents_iff (size : Nat) :
    log.Accepts (c.twoPassEvents context size) ↔
      ((∀ p ∈ c.trail, log.Accepts p.naming) ∧
        log.Accepts ((Walk.start context image {}).passAll context.registry program).settleEvents) ∧
      (∀ request ∈ slots.filterMap Slot.protection?,
        (request.resolve c.symbols context.pointerBase).toOption.isSome = true) ∧
      ∀ slot ∈ slots, log.Accepts ((slot.item context.registry).emitted context c.symbols
        (protectionsOf context c.symbols slots) size) := by
  obtain ⟨htrail, hmoving, hitems, hblocks, hprotections, hpreparing⟩ := of_slots? hc hm hslots
  have hwalk : (∀ p ∈ c.trail, log.Accepts p.naming ∧ log.Accepts p.moving) ↔
      ∀ p ∈ c.trail, log.Accepts p.naming :=
    forall₂_congr fun p hp => by simp [hmoving p hp]
  -- What is reported of a statement in the end depends on its place only.
  have hemitted (ps : List Protection) :
      (∀ slot ∈ slots, log.Accepts
        ((slot.item context.registry).emitted context c.symbols ps size)) ↔
      ∀ p ∈ c.trail, log.Accepts
        (Item.emitted context c.symbols ps size ⟨p, p.piece? context.registry⟩) := by
    rw [← htrail, List.forall_mem_map]
    rfl
  simp only [twoPassEvents, hpreparing, hblocks, hitems, hprotections, Log.accepts_append,
    Log.accepts_flatMap, Log.accepts_ofOutcome, List.forall_mem_map, hwalk, hemitted,
    List.not_mem_nil, false_implies, implies_true, and_true, and_assoc]

/-- Without a failure, the statements are settled with the names at the end. -/
theorem settled_of_accepts (hs : ∀ st ∈ program, st.value.Sound context.registry) {size : Nat}
    (h : log.Accepts (c.twoPassEvents context size)) :
    Settled context size log slots c.symbols := by
  obtain ⟨⟨hnaming, hsettle⟩, hrequests, hemitted⟩ :=
    (accepts_twoPassEvents_iff hc hm hslots size).1 h
  refine ⟨?_, hrequests, hemitted⟩
  subst hc
  rw [← definitions_of_slots? hm hslots]
  refine Walk.solution_of_quiet hs (fun p hp => ?_)
    (List.map_eq_nil_iff.2 (Log.accepts_faults.1 hsettle))
  -- What a statement reports of names are faults, which no log accepts.
  obtain ⟨complaints, hcomplaints⟩ := Walk.exists_complaints_of_mem_trail hp
  have hquiet := hnaming p hp
  rw [hcomplaints, Log.accepts_faults] at hquiet
  rw [hcomplaints, hquiet, List.map_nil]

/-- Statements that are settled are assembled without a failure. -/
theorem accepts_of_settled (hs : ∀ st ∈ program, st.value.Sound context.registry) {size : Nat}
    {symbols : Symbols} (h : Settled context size log slots symbols) :
    log.Accepts (c.twoPassEvents context size) := by
  have hnames := h.names
  rw [← definitions_of_slots? hm hslots] at hnames
  obtain ⟨hnaming, hsettle⟩ := Walk.quiet_of_solution hs hnames
  -- There is only one solution, so the names have the same values.
  have hsource : symbols.source = c.symbols.source := by
    rw [hc]
    exact hnames.unique (Walk.solution_of_quiet hs hnaming hsettle)
  have hsettled := h.congr hsource
  refine (accepts_twoPassEvents_iff hc hm hslots size).2
    ⟨⟨fun p hp => ?_, by rw [hsettle]; exact Log.accepts_nil⟩, hsettled.requests, hsettled.emitted⟩
  rw [hnaming p (by rwa [hc] at hp)]
  exact Log.accepts_nil

omit hm hslots in
/-- Without a failure, the cursor was moved past all statements. -/
theorem moving_of_accepts {size : Nat} (h : log.Accepts (c.twoPassEvents context size)) :
    ∀ p ∈ (Walk.start context image {}).trail context.registry program, p.moving = [] := by
  intro p hp
  subst hc
  simp only [twoPassEvents, Log.accepts_append, Log.accepts_flatMap] at h
  have hmoving := (h.1.1.1 p hp).2
  obtain ⟨v, statement, _, rfl, _⟩ := Walk.mem_trail context.registry hp
  obtain ⟨result, hresult⟩ := Option.isSome_iff_exists.1 (Log.accepts_ofOutcome.1 hmoving)
  show Event.ofOutcome statement.position _ = []
  rw [Except.toOption_eq_some_iff.1 hresult, Event.ofOutcome_ok]

end Course

end Assembly

end CartScript
