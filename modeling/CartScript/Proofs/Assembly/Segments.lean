import CartScript.Proofs.Assembly.Placement

/-!
# Segments of a program

Where a statement stands may depend on names, and so on what stands elsewhere in the program.  A
*segment* begins at a plain offset, and its other statements are *movable*: where they leave the
cursor does not depend on names or on remembered offsets, and they have no data in free space.  So
they have the same places wherever in a program the segment stands.
-/

namespace CartScript

/-! ## Movable statements -/

/-- Whether an argument is a single value. -/
def Arg.isExpr : Arg → Bool
  | .expr _ => true
  | .list _ | .text _ => false

/-- A statement that is laid out without names and remembered offsets, and has no data in free space:
    where an address is asked for, it has an expression. -/
def Statement.Movable (registry : Registry) : Statement → Prop
  | .push | .pop => False
  | .org e | .align e | .fill e _ => e.labels = []
  | .code index args => ∀ code ∈ registry.at? index, ∀ pair ∈ code.params.zip args,
    pair.1.kind.isPointer = true → pair.2.isExpr = true
  | _ => True

instance (registry : Registry) (statement : Statement) : Decidable (statement.Movable registry) :=
  match statement with
  | .push | .pop => inferInstanceAs (Decidable False)
  | .org e | .align e | .fill e _ => inferInstanceAs (Decidable (e.labels = []))
  | .code index args => inferInstanceAs (Decidable (∀ code ∈ registry.at? index,
    ∀ pair ∈ code.params.zip args, pair.1.kind.isPointer = true → pair.2.isExpr = true))
  | .label _ | .constant _ _ | .data _ _ | .pointers _ | .protect _ _ | .assertion _ | .report _ _
  | .bytes _ => inferInstanceAs (Decidable True)

variable {registry : Registry} {statement : Statement}

/-- A step past a movable statement does not look at names. -/
theorem Cursor.step_of_movable (h : statement.Movable registry) (c : Cursor) (s t : SymbolSource) :
    c.step statement registry s = c.step statement registry t := by
  have heval {e : Expr} (he : e.labels = []) : e.eval s c.offset = e.eval t c.offset :=
    Expr.eval_congr (by simp [he])
  cases statement with
  | org e | align e | fill e value => simp only [step, constantFor, heval h]
  | push | pop => exact h.elim
  | _ => rfl

/-- A step past a movable statement changes the offset only. -/
theorem Cursor.frame_of_step (h : statement.Movable registry) {c next : Cursor} {s : SymbolSource}
    {span : Option Span} (hstep : c.step statement registry s = .ok (span, next)) :
    next = { c with offset := next.offset } := by
  cases span with
  | some span =>
    -- A statement that writes moves the offset past its bytes.
    obtain ⟨_, hnext, _⟩ := Cursor.writes_of_step hstep
    rw [hnext]
  | none =>
    cases statement with
    | org e =>
      obtain ⟨_, _, hstep⟩ := Except.bind_eq_ok_iff.1 hstep
      obtain ⟨_, _, hstep⟩ := Except.bind_eq_ok_iff.1 hstep
      cases hstep
      rfl
    | align e =>
      obtain ⟨_, _, hstep⟩ := Except.bind_eq_ok_iff.1 hstep
      cases hstep
      unfold align
      split <;> rfl
    | fill e value =>
      obtain ⟨_, _, hstep⟩ := Except.bind_eq_ok_iff.1 hstep
      obtain ⟨_, _, hstep⟩ := Except.bind_eq_ok_iff.1 hstep
      cases hstep
    | code index args =>
      simp only [step] at hstep
      split at hstep <;> cases hstep
    | push | pop => exact h.elim
    | data | pointers | bytes => cases hstep
    | label | constant | protect | assertion | report => cases hstep; rfl

namespace Layout

theorem exprs_of_ofArg {code : Code} {param : Param} {arg : Arg} {l : Layout}
    (harg : param.kind.isPointer = true → arg.isExpr = true) (h : ofArg code param arg = .ok l) :
    ∀ f ∈ l.fields, ∃ e, f.source = .expr e := by
  have hints {start width : Nat} {items : List Expr} :
      ∀ f ∈ Field.ints start width items, ∃ e, f.source = .expr e := by
    intro f hf
    obtain ⟨i, e, _, _, rfl⟩ := Field.mem_ints hf
    exact ⟨e, rfl⟩
  cases hk : param.kind with
  | int signed hex =>
    cases arg with
    | expr value =>
      simp only [ofArg, hk, Except.ok.injEq] at h
      simp [← h, Field.int]
    | list items | text content => simp [ofArg, hk] at h
  | pointer element | struct group element =>
    cases arg with
    | expr value =>
      simp only [ofArg, hk, Except.ok.injEq] at h
      simp [← h, Field.pointer]
    | list items | text content =>
      -- Data for an address is excluded.
      simp [hk, FieldKind.isPointer, Arg.isExpr] at harg
  | text =>
    -- A list stands for single bytes here, and a text for bytes that are known.
    cases arg with
    | expr value => simp [ofArg, hk] at h
    | list items =>
      simp only [ofArg, hk] at h
      split at h
      · exact Except.ok.inj h ▸ hints
      · simp at h
    | text content =>
      simp only [ofArg, hk] at h
      split at h
      · simp [← Except.ok.inj h]
      · simp at h
  | array count signed hex =>
    cases arg with
    | expr value | text content => simp [ofArg, hk] at h
    | list items =>
      simp only [ofArg, hk] at h
      split at h
      · exact Except.ok.inj h ▸ hints
      · simp at h

theorem exprs_of_ofArgs {code : Code} {pairs : List (Param × Arg)} {l : Layout}
    (hpairs : ∀ pair ∈ pairs, pair.1.kind.isPointer = true → pair.2.isExpr = true)
    (h : ofArgs code pairs = .ok l) : ∀ f ∈ l.fields, ∃ e, f.source = .expr e := by
  induction pairs generalizing l with
  | nil =>
    obtain rfl := Except.ok.inj h
    simp
  | cons pair pairs ih =>
    obtain ⟨hpair, hpairs⟩ := List.forall_mem_cons.1 hpairs
    simp only [ofArgs] at h
    split at h
    · simp at h
    · rename_i first hfirst
      obtain ⟨rest, hrest, rfl⟩ := Except.map_eq_ok_iff.1 h
      exact List.forall_mem_append.2 ⟨exprs_of_ofArg hpair hfirst, ih hpairs hrest⟩

/-- The fields of a movable statement hold values of expressions. -/
theorem exprs_of_movable (hstatement : statement.Movable registry) {size : Nat} {l : Layout}
    (h : ofStatement statement size registry = .ok l) : ∀ f ∈ l.fields, ∃ e, f.source = .expr e := by
  cases statement with
  | code index args =>
    simp only [ofStatement] at h
    split at h
    · simp at h
    · rename_i code hat
      obtain ⟨rest, hrest, rfl⟩ := Except.map_eq_ok_iff.1 h
      intro f hf
      exact exprs_of_ofArgs (hstatement code hat) hrest f (by simpa [append] using hf)
  | data | fill =>
    obtain rfl := Except.ok.inj h
    intro f hf
    obtain ⟨i, e, _, _, rfl⟩ := Field.mem_ints hf
    exact ⟨e, rfl⟩
  | pointers values =>
    obtain rfl := Except.ok.inj h
    intro f hf
    obtain ⟨i, hi, rfl⟩ := List.mem_mapIdx.1 hf
    exact ⟨values[i], rfl⟩
  | _ =>
    obtain rfl := Except.ok.inj h
    simp

end Layout

namespace Assembly

open TwoPass (Slot)

/-! ## Places without names -/

/-- The places of statements from a cursor on and where they leave it, if it can be moved past all of
    them without a look at names. -/
def slots? (registry : Registry) : Program → Cursor → Option (List Slot × Cursor)
  | [], c => some ([], c)
  | statement :: program, c =>
    match c.step statement.value registry fun _ => none with
    | .error _ => none
    | .ok (span, next) => (slots? registry program next).map fun (slots, last) =>
      ({ statement, here := c.offset, span } :: slots, last)

/-- The places of two segments, one after the other. -/
theorem slots?_append (xs ys : Program) (c : Cursor) :
    slots? registry (xs ++ ys) c = (slots? registry xs c).bind fun (slots, next) =>
      (slots? registry ys next).map fun (rest, last) => (slots ++ rest, last) := by
  induction xs generalizing c with
  | nil => simp [slots?]
  | cons statement xs ih =>
    simp only [List.cons_append, slots?]
    cases c.step statement.value registry fun _ => none with
    | error fault => rfl
    | ok result =>
      simp only [ih, Option.map_bind, Option.bind_map]
      congr 1
      funext placed
      simp [Function.comp_def, Option.map_map]

/-- Movable statements change the offset only. -/
theorem frame_of_slots? {program : Program} (hm : ∀ st ∈ program, st.value.Movable registry)
    {c last : Cursor} {slots : List Slot} (h : slots? registry program c = some (slots, last)) :
    last = { c with offset := last.offset } := by
  induction program generalizing c slots with
  | nil =>
    obtain ⟨rfl, rfl⟩ := Prod.mk.inj (Option.some.inj h)
    rfl
  | cons statement program ih =>
    obtain ⟨hfirst, hrest⟩ := List.forall_mem_cons.1 hm
    simp only [slots?] at h
    split at h
    · simp at h
    · rename_i span next hstep
      obtain ⟨⟨rest, stop⟩, hslots, heq⟩ := Option.map_eq_some_iff.1 h
      obtain ⟨_, rfl⟩ := Prod.mk.inj heq
      rw [ih hrest hslots, Cursor.frame_of_step hfirst hstep]

namespace Walk

variable {w : Walk} {program : Program}

/-- What there is to see at a movable statement depends on the cursor only. -/
theorem passage_of_step {statement : Located Statement} (h : statement.value.Movable registry) :
    match w.cursor.step statement.value registry fun _ => none with
    | .error fault => (w.passage registry statement).moving = [.fault statement.position fault]
    | .ok (span, next) =>
      (w.passage registry statement).slot = { statement, here := w.cursor.offset, span } ∧
        (w.passage registry statement).moving = [] ∧ (w.pass registry statement).cursor = next := by
  -- The walk looks at the names it has so far, which makes no difference.
  have hstep := Cursor.step_of_movable h w.cursor (w.enter statement).symbols.source fun _ => none
  rw [← enter_cursor w statement] at hstep ⊢
  rw [← hstep]
  simp only [passage, pass, move, moveEvents]
  rcases (w.enter statement).cursor.step statement.value registry
    (w.enter statement).symbols.source with fault | ⟨span, next⟩
  · rfl
  · exact ⟨by rw [enter_cursor], rfl, rfl⟩

/-- The places of movable statements are those on the trail. -/
theorem trail_of_slots? (hm : ∀ st ∈ program, st.value.Movable registry) {slots : List Slot}
    {last : Cursor} (h : slots? registry program w.cursor = some (slots, last)) :
    (w.trail registry program).map Passage.slot = slots ∧
      ∀ p ∈ w.trail registry program, p.moving = [] := by
  induction program generalizing w slots with
  | nil =>
    obtain ⟨rfl, rfl⟩ := Prod.mk.inj (Option.some.inj h)
    simp [trail]
  | cons statement program ih =>
    obtain ⟨hfirst, hrest⟩ := List.forall_mem_cons.1 hm
    have hpassage := passage_of_step (w := w) hfirst
    simp only [slots?] at h
    split at h
    · simp at h
    · rename_i span next hstep
      obtain ⟨⟨rest, stop⟩, hslots, heq⟩ := Option.map_eq_some_iff.1 h
      obtain ⟨rfl, rfl⟩ := Prod.mk.inj heq
      simp only [hstep] at hpassage
      obtain ⟨hslot, hmoving, hcursor⟩ := hpassage
      -- The rest of the places begins where the walk goes on.
      rw [← hcursor] at hslots
      obtain ⟨hslots, hquiet⟩ := ih hrest hslots
      rw [trail, List.map_cons, hslots, hslot]
      exact ⟨rfl, List.forall_mem_cons.2 ⟨hmoving, hquiet⟩⟩

/-- If nothing is reported of moving past movable statements, they have places. -/
theorem exists_slots? (hm : ∀ st ∈ program, st.value.Movable registry)
    (h : ∀ p ∈ w.trail registry program, p.moving = []) :
    ∃ placed, slots? registry program w.cursor = some placed := by
  induction program generalizing w with
  | nil => exact ⟨_, rfl⟩
  | cons statement program ih =>
    obtain ⟨hfirst, hrest⟩ := List.forall_mem_cons.1 hm
    obtain ⟨hmoving, hquiet⟩ := List.forall_mem_cons.1 h
    have hpassage := passage_of_step (w := w) hfirst
    simp only [slots?]
    split at hpassage
    · rw [hpassage] at hmoving
      simp at hmoving
    · rename_i span next hstep
      obtain ⟨_, _, hcursor⟩ := hpassage
      obtain ⟨placed, hplaced⟩ := ih hrest hquiet
      rw [hcursor] at hplaced
      exact ⟨_, by rw [hplaced]; rfl⟩

end Walk

/-- Movable statements leave free space alone. -/
theorem placeTrail_of_movable {trail : List Passage}
    (h : ∀ p ∈ trail, p.slot.statement.value.Movable registry) (placing : Placing) :
    placeTrail registry trail placing = (trail.map fun p => ⟨p, p.piece? registry⟩, placing) ∧
      placeTrailEvents registry trail placing = [] := by
  refine placeTrail_of_exprs (fun p hp span layout hwrites => ?_) placing
  obtain ⟨_, _, hmap⟩ := Option.bind_eq_some_iff.1 hwrites
  obtain ⟨_, hlayout, heq⟩ := Option.map_eq_some_iff.1 hmap
  cases heq
  exact Layout.exprs_of_movable (h p hp) (Except.toOption_eq_some_iff.1 hlayout)

/-! ## Segments -/

/-- Movable statements that begin at a plain offset. -/
structure Segment (registry : Registry) where
  position : Position
  target : Int64
  body : Program
  movable : ∀ st ∈ body, st.value.Movable registry

namespace Segment

variable (a b : Segment registry) {base : UInt32} {limit : Nat}

/-- The statement that sets the offset. -/
def head : Located Statement := ⟨a.position, .org (.constant a.target)⟩

def program : Program := a.head :: a.body

theorem movable_program : ∀ st ∈ a.program, st.value.Movable registry :=
  List.forall_mem_cons.2 ⟨rfl, a.movable⟩

/-- The place of the first statement.  Only this one depends on what stands before the segment. -/
def headSlot (here : UInt32) : Slot := { statement := a.head, here, span := none }

/-- The places of the statements after the first, wherever the cursor was before. -/
def slots? (base : UInt32) (limit : Nat) : Option (List Slot × Cursor) :=
  (toOffset a.target base).toOption.bind fun offset =>
    Assembly.slots? registry a.body { offset, base, limit }

theorem slots?_program (offset base : UInt32) (limit : Nat) :
    Assembly.slots? registry a.program { offset, base, limit } =
      (a.slots? base limit).map fun (slots, last) => (a.headSlot offset :: slots, last) := by
  -- Setting the offset forgets the one before.
  have hstep : Cursor.step { offset, base, limit } a.head.value registry (fun _ => none) =
      (toOffset a.target base).map fun target => (none, { offset := target, base, limit }) := by
    show (toOffset a.target base).bind _ = _
    cases toOffset a.target base <;> rfl
  simp only [program, Assembly.slots?, hstep, slots?]
  cases toOffset a.target base with
  | error fault | ok target => rfl

/-- The places of two segments, one after the other. -/
theorem slots?_append (offset : UInt32) {xs ys : List Slot} {endX endY : Cursor}
    (hx : a.slots? base limit = some (xs, endX)) (hy : b.slots? base limit = some (ys, endY)) :
    Assembly.slots? registry (a.program ++ b.program) { offset, base, limit } =
      some (a.headSlot offset :: xs ++ b.headSlot endX.offset :: ys, endY) := by
  have hfirst : Assembly.slots? registry a.program { offset, base, limit } =
      some (a.headSlot offset :: xs, endX) := by rw [a.slots?_program, hx]; rfl
  -- The first segment leaves a cursor that differs in its offset only.
  obtain ⟨here, rfl⟩ : ∃ here, endX = { offset := here, base, limit } :=
    ⟨_, frame_of_slots? a.movable_program hfirst⟩
  simp only [Assembly.slots?_append, hfirst, Option.bind_some, b.slots?_program, hy, Option.map_some]

/-- Two segments of which one stands after the other have places of their own. -/
theorem of_slots?_append {offset : UInt32} {placed : List Slot × Cursor}
    (h : Assembly.slots? registry (a.program ++ b.program) { offset, base, limit } = some placed) :
    (∃ xs, a.slots? base limit = some xs) ∧ ∃ ys, b.slots? base limit = some ys := by
  rw [Assembly.slots?_append] at h
  obtain ⟨⟨first, next⟩, hfirst, h⟩ := Option.bind_eq_some_iff.1 h
  obtain ⟨second, hsecond, _⟩ := Option.map_eq_some_iff.1 h
  obtain ⟨here, rfl⟩ : ∃ here, next = { offset := here, base, limit } :=
    ⟨_, frame_of_slots? a.movable_program hfirst⟩
  rw [b.slots?_program] at hsecond
  rw [a.slots?_program] at hfirst
  obtain ⟨xs, hxs, _⟩ := Option.map_eq_some_iff.1 hfirst
  obtain ⟨ys, hys, _⟩ := Option.map_eq_some_iff.1 hsecond
  exact ⟨⟨xs, hxs⟩, ⟨ys, hys⟩⟩

end Segment

end Assembly

end CartScript
