import CartScript.Proofs.Assembly.Offsets
import CartScript.Proofs.Assembly.Undefined
import CartScript.Proofs.FreeSpace.Choice
import Mathlib.Order.Bounds.Basic

/-!
# Offsets without a bound

The offset at which a statement stands is a word of 32 bits.  An `ExactWalk` takes the same way
through a program with offsets that have no bound.  In an assembly without a failure the two meet at
every statement, as long as no alignment leads beyond the words: all other offsets are checked, but where
an alignment leads is cut off to a word.
-/

namespace CartScript

/-! ## Expressions at an offset without a bound -/

/-- A part of an expression, with a number for the offset at which it is evaluated. -/
def Node.standingAt (offset : Nat) : Node → Node
  | .here => .number (Int64.ofNat offset)
  | node => node

/-- The value of an expression at an offset that need not be a word. -/
def Expr.evalAt (e : Expr) (symbols : SymbolSource) (offset : Nat) : Except EvalFault Value :=
  Expr.eval ⟨e.nodes.map (Node.standingAt offset)⟩ symbols 0

theorem Expr.Machine.run_standingAt (symbols : SymbolSource) (here other : UInt32)
    (nodes : List Node) (m : Machine) :
    run symbols other (nodes.map (Node.standingAt here.toNat)) m = run symbols here nodes m := by
  induction nodes generalizing m with
  | nil => rfl
  | cons node nodes ih =>
    have hstep : m.step symbols other (node.standingAt here.toNat) = m.step symbols here node := by
      cases node <;> rfl
    simp only [List.map_cons, run, hstep, ih]

@[simp]
theorem Expr.evalAt_toNat (e : Expr) (symbols : SymbolSource) (here : UInt32) :
    e.evalAt symbols here.toNat = e.eval symbols here := by
  simp only [evalAt, eval, Machine.run_standingAt]

/-! ## The least multiple -/

/-- The least multiple of a number that is not below a start. -/
def leastMultiple (n start : Nat) : Nat := start + (n - start % n) % n

/-- `leastMultiple` is where an alignment leads. -/
theorem isLeast_leastMultiple {n : Nat} (hn : 0 < n) (start : Nat) :
    IsLeast {m | n ∣ m ∧ start ≤ m} (leastMultiple n start) := by
  have hmod := Nat.mod_lt start hn
  have hdiv := Nat.mod_add_div start n
  constructor
  · refine ⟨?_, Nat.le_add_right ..⟩
    rw [leastMultiple, Nat.dvd_iff_mod_eq_zero, Nat.add_mod_mod, ← Nat.mod_add_mod,
      Nat.add_sub_cancel' hmod.le, Nat.mod_self]
  · rintro m ⟨⟨k, rfl⟩, hle⟩
    rw [leastMultiple]
    by_cases hzero : start % n = 0
    · simpa [hzero] using hle
    · -- The multiple has a greater quotient than the start, which is no multiple.
      rw [Nat.mod_eq_of_lt (by omega)]
      have hquotient : start / n < k := by
        by_contra hnot
        have := Nat.mul_le_mul_left n (Nat.not_lt.1 hnot)
        omega
      have hnext := Nat.mul_le_mul_left n hquotient
      rw [Nat.mul_succ] at hnext
      omega

theorem roundUp_eq_leastMultiple {n : Nat} (hn : 0 < n) (start : Nat) :
    Allocator.roundUp start n = leastMultiple n start := by
  have hleast : IsLeast {m | n ∣ m ∧ start ≤ m} (Allocator.roundUp start n) :=
    ⟨⟨Nat.dvd_mul_left .., Allocator.le_roundUp start hn⟩, fun _ hm => Allocator.roundUp_le hn hm.2 hm.1⟩
  exact hleast.unique (isLeast_leastMultiple hn start)

/-! ## One step -/

/-- A cursor whose offsets have no bound. -/
structure ExactCursor where
  offset : Nat
  /-- The offsets remembered, the latest first. -/
  stack : List Nat := []
  /-- The address of the image. -/
  base : UInt32
  deriving Repr, DecidableEq, Inhabited

namespace ExactCursor

/-- The value of an expression, if it is known at the cursor. -/
def value? (c : ExactCursor) (symbols : SymbolSource) (e : Expr) : Option Int :=
  match e.evalAt symbols c.offset with
  | .ok (.known value) => some value.toInt
  | _ => none

/-- Moves past bytes that are written. -/
def advance (c : ExactCursor) (size : Nat) : ExactCursor := { c with offset := c.offset + size }

/-- The place that a value leads to: an address is taken back to its offset. -/
def place? (base : UInt32) (value : Int) : Option Nat :=
  if value < 0 then none
  else if base.toNat ≤ value ∧ value < base.toNat + Encoding.pointerLimit then
    some (value - base.toNat).toNat
  else some value.toNat

/-- Moves past a statement. -/
def step (c : ExactCursor) (registry : Registry) (symbols : SymbolSource) (statement : Statement) :
    Option ExactCursor :=
  match statement with
  | .code index _ => (registry.at? index).map fun code => c.advance code.length
  | .data width values => some (c.advance (width * values.length))
  | .pointers values => some (c.advance (4 * values.length))
  | .bytes content => some (c.advance content.size)
  | .fill count _ => do
    let size ← c.value? symbols count
    if size < 0 then none else some (c.advance size.toNat)
  | .org target => do
    let offset ← place? c.base (← c.value? symbols target)
    return { c with offset }
  | .align multiple => do
    let n ← c.value? symbols multiple
    return if 0 < n then { c with offset := leastMultiple n.toNat c.offset } else c
  | .push => some { c with stack := c.offset :: c.stack }
  | .pop =>
    match c.stack with
    | offset :: stack => some { c with offset, stack }
    | [] => none
  | .label _ | .constant _ _ | .protect _ _ | .assertion _ | .report _ _ => some c

/-- A cursor over words. -/
def ofCursor (c : Cursor) : ExactCursor where
  offset := c.offset.toNat
  stack := c.stack.map UInt32.toNat
  base := c.base

end ExactCursor

/-- Where an alignment by a positive number leads. -/
def Statement.multiple? (statement : Statement) (symbols : SymbolSource) (here : UInt32) :
    Option Nat :=
  match statement with
  | .align multiple =>
    match multiple.eval symbols here with
    | .ok (.known n) => if 0 < n then some (leastMultiple n.toInt.toNat here.toNat) else none
    | _ => none
  | _ => none

namespace ExactCursor

variable {c next : Cursor} {statement : Statement} {registry : Registry} {symbols : SymbolSource}
  {span? : Option Span}

theorem value?_ofCursor {keyword : String} {e : Expr} {value : Int64}
    (h : constantFor keyword e symbols c.offset = .ok value) :
    (ofCursor c).value? symbols e = some value.toInt := by
  simp only [value?, ofCursor, Expr.evalAt_toNat, eval_of_constantFor h]

theorem place?_of_toOffset {value : Int64} {base offset : UInt32}
    (h : toOffset value base = .ok offset) : place? base value.toInt = some offset.toNat := by
  obtain ⟨hnonneg, _, hplace⟩ := toOffset_eq_ok_iff.1 h
  rw [place?, if_neg (Int.not_lt.2 hnonneg)]
  split at hplace
  · rename_i haddress
    rw [if_pos haddress, hplace, Int.add_comm, Int.add_sub_cancel, Int.toNat_natCast]
  · rename_i hoffset
    rw [if_neg hoffset, hplace, Int.toNat_natCast]

/-- A step that writes bytes below the bound of words goes on where they end. -/
theorem step_of_writes {span : Span} (h : c.step statement registry symbols = .ok (some span, next))
    (hin : span.offset.toNat + span.size < 2 ^ 32) :
    next.offset.toNat = c.offset.toNat + span.size ∧
      (ofCursor c).step registry symbols statement = some (ofCursor next) := by
  obtain ⟨hoffset, hnext, hwrites⟩ := Cursor.writes_of_step h
  have hend : (c.offset + UInt32.ofNat span.size).toNat = c.offset.toNat + span.size := by
    rw [hoffset] at hin
    rw [UInt32.toNat_add, UInt32.toNat_ofNat', Nat.add_mod_mod, Nat.mod_eq_of_lt hin]
  have hadvance : ofCursor next = (ofCursor c).advance span.size := by
    simp only [advance, ofCursor, hnext, hend]
  refine ⟨by rw [hnext, hend], ?_⟩
  rw [hadvance]
  cases hwrites with
  | code hat hsize => simp only [step, hat, Option.map_some, hsize]
  | data hsize | pointers hsize | bytes hsize => rw [hsize, step]
  | fill =>
    obtain ⟨n, hn, hfill⟩ := Except.bind_eq_ok_iff.1 h
    obtain ⟨size, hsize, hstep⟩ := Except.bind_eq_ok_iff.1 hfill
    have hspan : span.size = size := by
      rw [← Option.some.inj (congrArg Prod.fst (Except.ok.inj hstep))]
    obtain ⟨hnonneg, rfl⟩ := Cursor.fillSize_eq_ok hsize
    simp only [step, value?_ofCursor hn, Option.bind_eq_bind, Option.bind_some, hspan]
    rw [if_neg (by omega)]

/-- An alignment, of which a word keeps what is left of its offset. -/
theorem step_of_align {multiple : Expr}
    (h : c.step (.align multiple) registry symbols = .ok (span?, next)) :
    (∀ m ∈ Statement.multiple? (.align multiple) symbols c.offset, next.offset.toNat = m % 2 ^ 32) ∧
      (ofCursor c).step registry symbols (.align multiple) = some { ofCursor next with
        offset := (Statement.multiple? (.align multiple) symbols c.offset).getD next.offset.toNat } := by
  obtain ⟨n, hn, hstep⟩ := Except.bind_eq_ok_iff.1 h
  obtain rfl : c.align n = next := congrArg Prod.snd (Except.ok.inj hstep)
  have hzero : (0 < n) ↔ 0 < n.toInt := by rw [Int64.lt_iff_toInt_lt, Int64.toInt_zero]
  simp only [step, value?_ofCursor hn, Statement.multiple?, eval_of_constantFor hn, Cursor.align,
    ← hzero, Option.bind_eq_bind, Option.bind_some]
  split
  · rename_i hpos
    have hnat : 0 < n.toInt.toNat := by
      rw [hzero] at hpos
      omega
    refine ⟨fun m hm => ?_, rfl⟩
    simp only [← Option.some.inj hm, UInt32.toNat_ofNat', roundUp_eq_leastMultiple hnat]
  · exact ⟨by simp, rfl⟩

/-- One step over words, and the same step without a bound.  They lead to the same offset, except that
    an alignment leads to a multiple, of which a word keeps what is left. -/
theorem step_ofCursor (h : c.step statement registry symbols = .ok (span?, next))
    (hin : ∀ span, span? = some span → span.offset.toNat + span.size < 2 ^ 32) :
    (∀ m ∈ statement.multiple? symbols c.offset, next.offset.toNat = m % 2 ^ 32) ∧
      (ofCursor c).step registry symbols statement = some { ofCursor next with
        offset := (statement.multiple? symbols c.offset).getD next.offset.toNat } := by
  cases span? with
  | some span =>
    obtain ⟨_, _, hwrites⟩ := Cursor.writes_of_step h
    have hnone : statement.multiple? symbols c.offset = none := by cases hwrites <;> rfl
    rw [hnone]
    exact ⟨by simp, (step_of_writes h (hin span rfl)).2⟩
  | none =>
    cases statement with
    | align multiple => exact step_of_align h
    | org target =>
      obtain ⟨value, hvalue, hplace⟩ := Except.bind_eq_ok_iff.1 h
      obtain ⟨offset, hoffset, hstep⟩ := Except.bind_eq_ok_iff.1 hplace
      obtain rfl : { c with offset } = next := congrArg Prod.snd (Except.ok.inj hstep)
      refine ⟨by simp [Statement.multiple?], ?_⟩
      have hbase : place? (ofCursor c).base value.toInt = some offset.toNat := place?_of_toOffset hoffset
      simp only [step, value?_ofCursor hvalue, hbase, Option.bind_eq_bind, Option.bind_some]
      rfl
    | push =>
      obtain rfl : { c with stack := c.offset :: c.stack } = next :=
        congrArg Prod.snd (Except.ok.inj h)
      exact ⟨by simp [Statement.multiple?], rfl⟩
    | pop =>
      simp only [Cursor.step] at h
      split at h
      · rename_i offset stack hstack
        obtain rfl : { c with offset, stack } = next := congrArg Prod.snd (Except.ok.inj h)
        refine ⟨by simp [Statement.multiple?], ?_⟩
        simp only [step, ofCursor, hstack, List.map_cons]
        rfl
      · simp at h
    | label | constant | protect | assertion | report =>
      obtain rfl : c = next := congrArg Prod.snd (Except.ok.inj h)
      exact ⟨by simp [Statement.multiple?], rfl⟩
    -- The other statements write.
    | code index args =>
      simp only [Cursor.step] at h
      split at h
      · exact absurd (congrArg Prod.fst (Except.ok.inj h)) (Option.some_ne_none _)
      · simp at h
    | data width values | pointers values | bytes content =>
      exact absurd (congrArg Prod.fst (Except.ok.inj h)) (Option.some_ne_none _)
    | fill count value =>
      obtain ⟨n, _, hfill⟩ := Except.bind_eq_ok_iff.1 h
      obtain ⟨size, _, hstep⟩ := Except.bind_eq_ok_iff.1 hfill
      exact absurd (congrArg Prod.fst (Except.ok.inj hstep)) (Option.some_ne_none _)

end ExactCursor

/-! ## A walk -/

/-- Gives a name its value, once. -/
def SymbolSource.declare? (s : SymbolSource) (name : String) (value : Int64) : Option SymbolSource :=
  if (s name).isSome then none else some fun n => if n = name then some value else s n

theorem Symbols.declare?_source {s t : Symbols} {name : String} {value : Int64}
    (h : s.declare name value = .ok t) : s.source.declare? name value = some t.source := by
  have hnew : (s.source name).isSome = false := by
    unfold declare at h
    split at h
    · simp at h
    · rename_i hcontains
      exact Bool.not_eq_true _ ▸ hcontains
  rw [SymbolSource.declare?, hnew]
  exact congrArg some (funext fun n => (source_of_declare h n).symm)

namespace Assembly

/-- A walk whose offsets have no bound, with the names known so far. -/
structure ExactWalk where
  cursor : ExactCursor
  names : SymbolSource := fun _ => none

namespace ExactWalk

def start (context : Context) : ExactWalk :=
  { cursor := { offset := context.origin.toNat, base := context.pointerBase } }

/-- Gives the name of a label or a constant its value; a constant may wait for others. -/
def name? (w : ExactWalk) : Statement → Option SymbolSource
  | .label name => w.names.declare? name (Int64.ofNat w.cursor.offset)
  | .constant name value =>
    match value.evalAt w.names w.cursor.offset with
    | .ok (.known v) => w.names.declare? name v
    | .ok (.deferred _) => some w.names
    | .error _ => none
  | _ => some w.names

/-- The walk past a statement. -/
def pass? (registry : Registry) (w : ExactWalk) (statement : Statement) : Option ExactWalk := do
  let names ← w.name? statement
  let cursor ← w.cursor.step registry names statement
  return { cursor, names }

/-- The offsets of all statements on the way through a program. -/
def offsets? (registry : Registry) : Program → ExactWalk → Option (List Nat)
  | [], _ => some []
  | statement :: program, w =>
    (w.pass? registry statement.value).bind fun next =>
      (offsets? registry program next).map (w.cursor.offset :: ·)

/-- The walk over words. -/
def ofWalk (w : Walk) : ExactWalk := ⟨.ofCursor w.cursor, w.symbols.source⟩

/-- The walk at another offset. -/
def standAt (w : ExactWalk) (offset : Nat) : ExactWalk := { w with cursor.offset := offset }

/-- The first offset is that of the walk. -/
theorem head_of_offsets? {registry : Registry} {w : ExactWalk} {statement : Located Statement}
    {program : Program} {offset : Nat} {offsets : List Nat}
    (h : offsets? registry (statement :: program) w = some (offset :: offsets)) :
    w.cursor.offset = offset := by
  obtain ⟨next, _, h⟩ := Option.bind_eq_some_iff.1 h
  obtain ⟨rest, _, h⟩ := Option.map_eq_some_iff.1 h
  exact (List.cons.inj h).1

end ExactWalk

/-- Where an alignment by a positive number leads. -/
def Passage.multiple? (p : Passage) : Option Nat :=
  p.slot.statement.value.multiple? p.symbols.source p.slot.here

/-- What is written lies below the bound of words. -/
def Passage.InWords (p : Passage) : Prop :=
  ∀ span, p.slot.span = some span → span.offset.toNat + span.size < 2 ^ 32

section Walk

variable {registry : Registry} {w : Walk} {statement : Located Statement}

/-- The step past a statement. -/
theorem Walk.step_of_faultless (h : Event.Faultless (w.passage registry statement).moving) :
    w.cursor.step statement.value registry (w.passage registry statement).symbols.source =
      .ok ((w.passage registry statement).slot.span, (w.pass registry statement).cursor) := by
  obtain ⟨⟨span, next⟩, hstep⟩ := Event.exists_of_faultless h
  rw [enter_cursor] at hstep
  simp only [passage, pass, move, enter_cursor, hstep]

theorem Walk.declare?_of_faultless {position : Position} {name : String} {value : Int64}
    (h : Event.Faultless (Event.ofOutcome position (w.symbols.declare name value))) :
    w.symbols.source.declare? name value = some (w.declare position name value).symbols.source := by
  obtain ⟨symbols, hdeclare⟩ := Event.exists_of_faultless h
  simp only [declare, hdeclare, Symbols.declare?_source hdeclare]

namespace ExactWalk

theorem ofWalk_noting : ofWalk (w.noting statement) = ofWalk w := by
  simp only [ofWalk, Walk.noting, Symbols.source_noteUses]

/-- Without a fault, a name gets the same value in both walks. -/
theorem name?_ofWalk (h : Event.Faultless (w.nameEvents statement)) :
    (ofWalk w).name? statement.value = some (w.name statement).symbols.source := by
  obtain ⟨position, statement⟩ := statement
  cases statement with
  | label name => exact Walk.declare?_of_faultless h
  | constant name value =>
    simp only [name?, Walk.name, Walk.nameEvents, ofWalk, ExactCursor.ofCursor, Expr.evalAt_toNat]
      at h ⊢
    rcases heval : value.eval w.symbols.source w.cursor.offset with fault | (v | other)
    · simp only [heval] at h
      exact absurd rfl (h _ (List.mem_singleton_self _))
    · simp only [heval] at h
      exact Walk.declare?_of_faultless h
    · rfl
  | _ => rfl

/-- One statement further, without a fault: both walks know the same names, and they are at the same
    offset, except after an alignment. -/
theorem pass?_ofWalk (hnaming : Event.Faultless (w.passage registry statement).naming)
    (hmoving : Event.Faultless (w.passage registry statement).moving)
    (hin : (w.passage registry statement).InWords) :
    (ofWalk w).pass? registry statement.value =
      some ((ofWalk (w.pass registry statement)).standAt
        ((w.passage registry statement).multiple?.getD
          (w.pass registry statement).cursor.offset.toNat)) := by
  have hname := name?_ofWalk hnaming
  rw [ofWalk_noting] at hname
  obtain ⟨_, hstep⟩ := ExactCursor.step_ofCursor (Walk.step_of_faultless hmoving) hin
  have hsource : (w.pass registry statement).symbols.source =
      (w.passage registry statement).symbols.source := by
    rw [Walk.pass, Walk.move_symbols]
    rfl
  simp only [ofWalk, standAt, hsource]
  exact Option.bind_eq_some_iff.2 ⟨_, hname, Option.bind_eq_some_iff.2 ⟨_, hstep, rfl⟩⟩

/-- An alignment to a word leads both walks to the same offset. -/
theorem standAt_ofWalk (hmoving : Event.Faultless (w.passage registry statement).moving)
    (hin : (w.passage registry statement).InWords)
    (hfits : ∀ m ∈ (w.passage registry statement).multiple?, m < 2 ^ 32) :
    (ofWalk (w.pass registry statement)).standAt ((w.passage registry statement).multiple?.getD
      (w.pass registry statement).cursor.offset.toNat) = ofWalk (w.pass registry statement) := by
  obtain ⟨hrest, _⟩ := ExactCursor.step_ofCursor (Walk.step_of_faultless hmoving) hin
  cases hmultiple : (w.passage registry statement).multiple? with
  | none => rfl
  | some m =>
    have hoffset := hrest m hmultiple
    rw [Nat.mod_eq_of_lt (hfits m hmultiple)] at hoffset
    rw [Option.getD_some, ← hoffset]
    rfl

/-- All offsets along a walk without a fault are the same over words and without a bound, if and only
    if no alignment leads beyond the words, the last statement aside. -/
theorem offsets?_eq_iff (program : Program) (w : Walk)
    (hquiet : ∀ p ∈ w.trail registry program, Event.Faultless p.naming ∧ Event.Faultless p.moving)
    (hin : ∀ p ∈ w.trail registry program, p.InWords) :
    offsets? registry program (ofWalk w) =
        some ((w.trail registry program).map fun p => p.slot.here.toNat) ↔
      ∀ p ∈ (w.trail registry program).dropLast, ∀ m ∈ p.multiple?, m < 2 ^ 32 := by
  induction program generalizing w with
  | nil => simp [offsets?, Walk.trail]
  | cons statement program ih =>
    simp only [Walk.trail, List.forall_mem_cons] at hquiet hin
    obtain ⟨⟨hnaming, hmoving⟩, hquiet⟩ := hquiet
    obtain ⟨hin, hinRest⟩ := hin
    have hcons : ∀ offsets, offsets? registry (statement :: program) (ofWalk w) =
          some (w.cursor.offset.toNat :: offsets) ↔
        offsets? registry program ((ofWalk (w.pass registry statement)).standAt
          ((w.passage registry statement).multiple?.getD
            (w.pass registry statement).cursor.offset.toNat)) = some offsets := by
      intro offsets
      rw [offsets?, pass?_ofWalk hnaming hmoving hin, Option.bind_some, Option.map_eq_some_iff]
      constructor
      · intro h
        obtain ⟨rest, hrest, hcons⟩ := h
        rwa [(List.cons.inj hcons).2] at hrest
      · intro h
        exact ⟨offsets, h, rfl⟩
    rw [Walk.trail, List.map_cons]
    refine (hcons _).trans ?_
    cases program with
    | nil => simp [offsets?, Walk.trail]
    | cons second rest =>
      rw [List.dropLast_cons_of_ne_nil (by simp [Walk.trail]), List.forall_mem_cons]
      by_cases hfits : ∀ m ∈ (w.passage registry statement).multiple?, m < 2 ^ 32
      · rw [standAt_ofWalk hmoving hin hfits, ih _ hquiet hinRest]
        exact (and_iff_right hfits).symm
      · -- The next offset is a word, but the multiple is none.
        refine iff_of_false (fun h => hfits fun m hm => ?_) (fun h => hfits h.1)
        have hhead := head_of_offsets? h
        rw [Option.mem_def.1 hm] at hhead
        rw [show m = _ from hhead]
        exact UInt32.toNat_lt _

end ExactWalk

/-- Along a walk without a fault, a statement that writes is followed at the end of its bytes, and an
    alignment is followed at what is left of the multiple in a word. -/
theorem Walk.isChain_trail (program : Program) (w : Walk)
    (hquiet : ∀ p ∈ w.trail registry program, Event.Faultless p.moving)
    (hin : ∀ p ∈ w.trail registry program, p.InWords) :
    (w.trail registry program).IsChain fun p next =>
      (∀ span, p.slot.span = some span → next.slot.here.toNat = p.slot.here.toNat + span.size) ∧
        ∀ m ∈ p.multiple?, next.slot.here.toNat = m % 2 ^ 32 := by
  induction program generalizing w with
  | nil => exact .nil
  | cons statement program ih =>
    simp only [trail, List.forall_mem_cons] at hquiet hin
    have hrest := ih _ hquiet.2 hin.2
    have hstep := step_of_faultless hquiet.1
    cases program with
    | nil => exact .singleton _
    | cons second rest =>
      refine .cons_cons ⟨fun span hspan => ?_, (ExactCursor.step_ofCursor hstep hin.1).1⟩ hrest
      rw [hspan] at hstep
      exact (ExactCursor.step_of_writes hstep (hin.1 span hspan)).1

end Walk

end Assembly

namespace Engine

open Assembly

/-- What is written in an assembly without a failure lies in the image. -/
theorem inWords_of_not_failsSince {engine : Engine} {program : Program} {context : Assembly.Context}
    {image : Image} {log : Log} (hsize : image.size < 2 ^ 32)
    (h : ¬ log.FailsSince (engine.assemble program context image log).2) :
    ∀ p ∈ (Walk.start context image {}).trail context.registry program, p.InWords := by
  have hflawless := flawless_course (faultless_of_not_failsSince h)
  intro p hp span hspan
  cases engine with
  | twoPass | onePass =>
    obtain ⟨item, hitem, rfl⟩ := Course.exists_item hp
    -- The bytes of the statement were checked against the image before they were written.
    have hfits := fits_of_mem_placeTrail hitem
    obtain ⟨piece, hpiece, rfl⟩ := hfits.exists_piece (hflawless.fits item hitem) hspan
    have hchecked := hflawless.checked item hitem piece hpiece
    exact (checkWrite_eq_ok_iff.1 hchecked).1.trans_lt hsize

/-- The offsets of an assembly without a failure are exact, if and only if no alignment leads beyond the
    words.  What a statement writes always advances by its size, and an alignment always leads to the
    least multiple, as far as a word holds it. -/
theorem offsets_exact_iff_multiples_fit {engine : Engine} {program : Program}
    {context : Assembly.Context} {image : Image} {log : Log} (hsize : image.size < 2 ^ 32)
    (h : ¬ log.FailsSince (engine.assemble program context image log).2) :
    let trail := (Walk.start context image {}).trail context.registry program
    trail.map (fun p => p.slot.statement) = program ∧
      (ExactWalk.offsets? context.registry program (.start context) =
          some (trail.map fun p => p.slot.here.toNat) ↔
        ∀ p ∈ trail.dropLast, ∀ m ∈ p.multiple?, m < 2 ^ 32) ∧
      trail.IsChain fun p next =>
        (∀ span, p.slot.span = some span → next.slot.here.toNat = p.slot.here.toNat + span.size) ∧
          ∀ m ∈ p.multiple?, next.slot.here.toNat = m % 2 ^ 32 := by
  intro trail
  have hwalked : ∀ p ∈ trail, Event.Faultless p.naming ∧ Event.Faultless p.moving := by
    have hflawless := flawless_course (faultless_of_not_failsSince h)
    cases engine with
    | twoPass | onePass => exact hflawless.walked
  have hin := inWords_of_not_failsSince hsize h
  refine ⟨Walk.map_statement_trail .., ?_, ?_⟩
  · exact ExactWalk.offsets?_eq_iff program (Walk.start context image {}) hwalked hin
  · exact Walk.isChain_trail program (Walk.start context image {}) (fun p hp => (hwalked p hp).2) hin

end Engine

namespace Sample

/-- A program that goes to addresses and back, aligns, and fills. -/
def moves : Program :=
  [⟨⟨"moves", 1, 1⟩, .org ⟨[.number 0x8000004]⟩⟩,
    ⟨⟨"moves", 2, 1⟩, .label "start"⟩,
    ⟨⟨"moves", 3, 1⟩, .data 1 [⟨[.number 1]⟩]⟩,
    ⟨⟨"moves", 4, 1⟩, .align ⟨[.number 8]⟩⟩,
    ⟨⟨"moves", 5, 1⟩, .push⟩,
    ⟨⟨"moves", 6, 1⟩, .org ⟨[.label "start", .number 32, .binary .plus]⟩⟩,
    ⟨⟨"moves", 7, 1⟩, .fill ⟨[.number 3]⟩ ⟨[.number 0]⟩⟩,
    ⟨⟨"moves", 8, 1⟩, .pop⟩,
    ⟨⟨"moves", 9, 1⟩, .pointers [⟨[.label "start"]⟩]⟩]

/-- An alignment by a number that is no word. -/
def farAlignment : Program :=
  [⟨⟨"far", 1, 1⟩, .org ⟨[.number 4]⟩⟩,
    ⟨⟨"far", 2, 1⟩, .align ⟨[.number 0x100000000]⟩⟩,
    ⟨⟨"far", 3, 1⟩, .data 1 [⟨[.number 1]⟩]⟩]

theorem farAlignment_parsed : farAlignment.Parsed {} := by
  have h : (Script.parse ⟨"far", Utf8.encode "ORG 4\nALIGN 0x100000000\nBYTE 1\n", none⟩ {} []).outcome =
      .ok farAlignment := by
    decide +kernel
  exact ⟨_, _, _, rfl, h⟩

end Sample

namespace Engine

open Assembly

/-- A program whose offsets are exact. -/
theorem offsets_exact_iff_multiples_fit_moves :
    let image : Image := Array.replicate 64 0xFF
    let trail := (Walk.start {} image {}).trail {} Sample.moves
    ¬ ({} : Log).FailsSince (onePass.assemble Sample.moves {} image {}).2 ∧
      trail.map (fun p => p.slot.here.toNat) = [0, 4, 4, 5, 8, 8, 36, 39, 8] ∧
      ExactWalk.offsets? {} Sample.moves (.start {}) = some (trail.map fun p => p.slot.here.toNat) := by
  have hok : ¬ ({} : Log).FailsSince (onePass.assemble Sample.moves {} (Array.replicate 64 0xFF) {}).2 := by
    decide +kernel
  refine ⟨hok, by decide +kernel, ?_⟩
  exact (offsets_exact_iff_multiples_fit (by decide) hok).2.1.2 (by decide +kernel)

/-- An assembly without a failure whose last offset is not exact: the alignment leads back to the start
    of the image. -/
theorem offsets_inexact_far_alignment :
    let image : Image := Array.replicate 16 0xFF
    let trail := (Walk.start {} image {}).trail {} Sample.farAlignment
    Sample.farAlignment.Parsed {} ∧
      (∀ engine : Engine, ¬ ({} : Log).FailsSince (engine.assemble Sample.farAlignment {} image {}).2) ∧
      trail.map (fun p => p.slot.here.toNat) = [0, 4, 0] ∧
      ExactWalk.offsets? {} Sample.farAlignment (.start {}) = some [0, 4, 2 ^ 32] := by
  refine ⟨Sample.farAlignment_parsed, fun engine => ?_, by decide +kernel, by decide +kernel⟩
  cases engine <;> decide +kernel

end Engine

end CartScript
