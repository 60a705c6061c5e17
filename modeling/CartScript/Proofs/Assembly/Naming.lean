import CartScript.Proofs.Assembly.Faults

/-!
# Names on a trail

Labels and constants define names where they stand on a trail.  A walk tries these definitions in the
order of the trail, and then settles the constants that still wait.  So all names of a program get
their values if and only if the definitions have a solution, which does not depend on the order of
the statements.
-/

namespace CartScript.Assembly

open TwoPass (Slot)
open SymbolSource (Solution)
open Symbols (Accounts Complaint Round Underway)

/-- What a statement defines where it stands.  A label is a constant whose value is the offset. -/
def TwoPass.Slot.definition? (slot : Slot) : Option WaitingConstant :=
  let define (name : String) (value : Expr) : WaitingConstant :=
    { name, value, here := slot.here, position := slot.statement.position }
  match slot.statement.value with
  | .label name => some (define name ⟨[.here]⟩)
  | .constant name value => some (define name value)
  | _ => none

theorem TwoPass.Slot.wellFormed_of_definition? {registry : Registry} {slot : Slot}
    (hs : slot.statement.value.Sound registry) {d : WaitingConstant}
    (h : slot.definition? = some d) : d.value.WellFormed := by
  unfold definition? at h
  split at h
  · obtain rfl := Option.some.inj h
    rfl
  · rename_i name value hvalue
    obtain rfl := Option.some.inj h
    exact hs.exprs value (by simp [hvalue, Statement.exprs])
  · simp at h

namespace Walk

variable {registry : Registry}

/-! ## One statement -/

/-- The definitions of a walk that are under way. -/
def round (w : Walk) : Round := { symbols := w.symbols, waiting := w.waiting.toList }

variable {final : SymbolSource} {d : WaitingConstant} {span : Option Span}

/-- Naming tries what a statement defines. -/
theorem name_eq_step (w : Walk) (statement : Located Statement)
    (h : Slot.definition? { statement, here := w.cursor.offset, span } = some d) :
    (w.name statement).round = { w.round.step d with complaints := [] } ∧
      w.nameEvents statement = (w.round.step d).complaints.map fun c => .fault c.position c.value := by
  obtain ⟨position, statement⟩ := statement
  cases statement with
  | label name =>
    obtain rfl := Option.some.inj h
    rw [Round.step_eq]
    simp only [Walk.name, Walk.declare, nameEvents, Symbols.attempt, round]
    -- The value of a label is known.
    rw [show Expr.eval ⟨[.here]⟩ w.symbols.source w.cursor.offset =
      .ok (.known (Int64.ofNat w.cursor.offset.toNat)) from rfl]
    cases hdeclare : w.symbols.declare name (Int64.ofNat w.cursor.offset.toNat) <;>
      simp [hdeclare, Except.map]
  | constant name value =>
    obtain rfl := Option.some.inj h
    rw [Round.step_eq]
    simp only [Walk.name, Walk.declare, nameEvents, Symbols.attempt, round]
    -- A fault, a value that may be declared already, or a name that is missing.
    rcases heval : value.eval w.symbols.source w.cursor.offset with fault | (v | missing)
    · simp
    · cases hdeclare : w.symbols.declare name v <;> simp [hdeclare, Except.map]
    · simp
  | _ => simp [Slot.definition?] at h

/-- A statement without a definition names nothing. -/
theorem name_of_definition? (w : Walk) {statement : Located Statement}
    (h : Slot.definition? { statement, here := w.cursor.offset, span } = none) :
    w.name statement = w ∧ w.nameEvents statement = [] := by
  obtain ⟨position, statement⟩ := statement
  cases statement with
  | label name | constant name value => simp [Slot.definition?] at h
  | _ => exact ⟨rfl, rfl⟩

variable {all declared refused rest : List WaitingConstant} {earlier : List Complaint} {w : Walk}
  {statement : Located Statement}

/-- A statement has its definition tried, if it has one. -/
theorem underway_pass (hvalues : ∀ c ∈ all, c.value.WellFormed)
    (h : Underway {} all earlier w.round
      ((w.passage registry statement).slot.definition?.toList ++ rest) declared refused) :
    ∃ complaints declared refused,
      (w.passage registry statement).naming = complaints.map (fun c => .fault c.position c.value) ∧
      Underway {} all (earlier ++ complaints) (w.pass registry statement).round rest declared
        refused := by
  -- Moving leaves names alone, and so does noting where they are used.
  have hround : (w.pass registry statement).round = ((w.noting statement).name statement).round := by
    rw [round, pass, move_symbols, waiting_move]
    rfl
  have hnoted := h.of_source hvalues (Symbols.source_noteUses w.symbols statement).symm
  rw [hround]
  cases hd : (w.passage registry statement).slot.definition? with
  | none =>
    obtain ⟨hname, hevents⟩ := name_of_definition? (w.noting statement) hd
    rw [hd] at hnoted
    exact ⟨[], declared, refused, hevents, by rw [hname, List.append_nil]; exact hnoted⟩
  | some d =>
    obtain ⟨hname, hevents⟩ := name_eq_step (w.noting statement) statement hd
    rw [hd] at hnoted
    obtain ⟨declared, refused, hstep⟩ := hnoted.step hvalues
    refine ⟨_, declared, refused, hevents, ?_⟩
    rw [hname]
    exact ⟨hstep.shares, hstep.values, by rw [List.append_nil]; exact hstep.said, hstep.decided⟩

/-! ## All statements -/

variable {program : Program}

/-- The definitions on a trail. -/
def definitions (registry : Registry) (program : Program) (w : Walk) : List WaitingConstant :=
  (w.trail registry program).filterMap fun p => p.slot.definition?

theorem definitions_cons :
    w.definitions registry (statement :: program) =
      (w.passage registry statement).slot.definition?.toList ++
        (w.pass registry statement).definitions registry program := by
  rw [definitions, trail, List.filterMap_cons]
  cases (w.passage registry statement).slot.definition? <;> rfl

theorem underway_passAll (hvalues : ∀ c ∈ all, c.value.WellFormed)
    (h : Underway {} all earlier w.round (w.definitions registry program) declared refused) :
    ∃ complaints declared refused,
      (w.trail registry program).flatMap Passage.naming =
        complaints.map (fun c => .fault c.position c.value) ∧
      Underway {} all (earlier ++ complaints) (w.passAll registry program).round [] declared
        refused := by
  induction program generalizing w earlier declared refused with
  | nil => exact ⟨[], declared, refused, rfl, by rwa [List.append_nil]⟩
  | cons statement program ih =>
    rw [definitions_cons] at h
    obtain ⟨first, _, _, hfirst, hpass⟩ := underway_pass hvalues h
    obtain ⟨complaints, declared, refused, hrest, hall⟩ := ih hpass
    refine ⟨first ++ complaints, declared, refused, ?_, by rwa [← List.append_assoc]⟩
    rw [trail, List.flatMap_cons, hfirst, hrest, List.map_append]

/-- What is reported of names are faults. -/
theorem exists_complaints_of_mem_trail {p : Passage} (h : p ∈ w.trail registry program) :
    ∃ complaints : List Symbols.Complaint,
      p.naming = complaints.map fun c => .fault c.position c.value := by
  obtain ⟨v, statement, _, rfl, _⟩ := mem_trail registry h
  cases hd : (v.passage registry statement).slot.definition? with
  | none => exact ⟨[], (name_of_definition? (v.noting statement) hd).2⟩
  | some d => exact ⟨_, (name_eq_step (v.noting statement) statement hd).2⟩

theorem wellFormed_of_mem_definitions (hs : ∀ st ∈ program, st.value.Sound registry)
    (h : d ∈ w.definitions registry program) : d.value.WellFormed := by
  obtain ⟨p, hp, hd⟩ := List.mem_filterMap.1 h
  obtain ⟨v, statement, hstatement, rfl, _⟩ := mem_trail registry hp
  exact Slot.wellFormed_of_definition? (hs statement hstatement) hd

/-! ## From the start -/

section Start

variable {context : Context} {image : Image} {log : Log}
  (hs : ∀ st ∈ program, st.value.Sound registry)

include hs

/-- Each definition gets its value or is refused, and nothing else is reported of names. -/
theorem exists_accounts : ∃ declared refused,
    Accounts {} ((start context image log).passAll registry program).settle.symbols
      ((start context image log).definitions registry program) declared refused ∧
    ((∀ p ∈ (start context image log).trail registry program, p.naming = []) ∧
      ((start context image log).passAll registry program).settleEvents = [] ↔ refused = []) := by
  have hvalues : ∀ d ∈ (start context image log).definitions registry program, d.value.WellFormed :=
    fun d hd => wellFormed_of_mem_definitions hs hd
  have hstart : Underway {} ((start context image log).definitions registry program) []
      (start context image log).round ((start context image log).definitions registry program) [] [] :=
    ⟨.refl _, .nil _, rfl, by simp⟩
  obtain ⟨complaints, _, _, hnaming, hwalk⟩ := underway_passAll hvalues hstart
  obtain ⟨declared, refused, haccounts, hsaid⟩ := Underway.settleFrom _ hvalues ⟨_, _, hwalk.again⟩
  refine ⟨declared, refused, haccounts, ?_⟩
  rw [← List.flatMap_eq_nil_iff, hnaming, settleEvents, List.map_eq_nil_iff, List.map_eq_nil_iff]
  rw [← List.map_eq_nil_iff (l := refused), ← hsaid, List.nil_append, List.append_eq_nil_iff]
  rfl

/-- Names that are given without complaint have the values of the solution. -/
theorem solution_of_quiet
    (hnaming : ∀ p ∈ (start context image log).trail registry program, p.naming = [])
    (hsettle : ((start context image log).passAll registry program).settleEvents = []) :
    Solution ((start context image log).definitions registry program)
      ((start context image log).passAll registry program).settle.symbols.source := by
  obtain ⟨declared, refused, haccounts, hquiet⟩ := exists_accounts hs
  obtain rfl := hquiet.1 ⟨hnaming, hsettle⟩
  exact haccounts.values.of_perm (by simpa using haccounts.shares)

/-- If there is a solution, there is no complaint. -/
theorem quiet_of_solution {final : SymbolSource}
    (hfinal : Solution ((start context image log).definitions registry program) final) :
    (∀ p ∈ (start context image log).trail registry program, p.naming = []) ∧
      ((start context image log).passAll registry program).settleEvents = [] := by
  obtain ⟨declared, refused, haccounts, hquiet⟩ := exists_accounts hs
  exact hquiet.2 (haccounts.refused_eq_nil hfinal)

end Start

end Walk

end CartScript.Assembly
