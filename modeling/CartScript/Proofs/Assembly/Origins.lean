import CartScript.Proofs.Assembly.Blocks
import CartScript.Proofs.Symbols.Uses

/-!
# Where faults come from

A fault of an assembly comes from an expression of a statement, from arguments that do not fit, or it
is *plain*: it has nothing to do with names, codes and arguments.  So what holds of the faults of
expressions and arguments, and of plain faults, holds of all faults, whichever engine reports them.
-/

namespace CartScript

/-! ## Plain faults -/

/-- The faults that have nothing to do with names, nor with the form of expressions, codes and
    arguments. -/
def AssembleFault.Plain : AssembleFault → Prop
  | .unresolvedSymbol _ _ | .eval _ | .noCode _ | .wrongArgument _ _ => False
  | _ => True

theorem Symbols.failsOnly_declare (s : Symbols) (name : String) (value : Int64) :
    (s.declare name value).FailsOnly AssembleFault.Plain :=
  .ite (fun _ => .error trivial) (fun _ => .ok _)

theorem Encoding.failsOnly_int (value : Int64) (width : Nat) :
    (int value width).FailsOnly AssembleFault.Plain :=
  .ite (fun _ => .ok _) (fun _ => .error trivial)

theorem Encoding.failsOnly_text (bytes : List UInt8) (length : Nat) :
    (text bytes length).FailsOnly AssembleFault.Plain :=
  .ite (fun _ => .error trivial) (fun _ => .ok _)

theorem Field.failsOnly_encode (f : Field) (value : Int64) (base : UInt32) :
    (f.encode value base).FailsOnly AssembleFault.Plain :=
  (Encoding.failsOnly_int _ _).map _

theorem failsOnly_toOffset (value : Int64) (base : UInt32) :
    (toOffset value base).FailsOnly AssembleFault.Plain :=
  .ite (fun _ => .error trivial) (fun _ => .ok _)

theorem Cursor.failsOnly_fillSize (c : Cursor) (count : Int64) :
    (c.fillSize count).FailsOnly AssembleFault.Plain :=
  .ite (fun _ => .error trivial) (fun _ => .ite (fun _ => .error trivial) (fun _ => .ok _))

theorem Allocator.failsOnly_allocateData (a : Allocator) (size : Nat) :
    (a.allocateData size).FailsOnly AssembleFault.Plain := by
  refine .ite (fun _ => ?_) fun _ => .error trivial
  unfold allocate
  split
  · exact .ok _
  · exact .error trivial

namespace Assembly

theorem failsOnly_checkAssertion (value : Int64) :
    (checkAssertion value).FailsOnly AssembleFault.Plain :=
  .ite (fun _ => .error trivial) (fun _ => .ok _)

theorem failsOnly_checkWrite (span : Span) (size : Nat) (protections : List Protection) :
    (checkWrite span size protections).FailsOnly AssembleFault.Plain := by
  refine .ite (fun _ => .error trivial) fun _ => ?_
  split
  · exact .error trivial
  · exact .ok _

end Assembly

/-! ## The expressions of fields -/

/-- The expressions of a field: its own one, or the elements of a list in free space. -/
def FieldSource.exprs : FieldSource → List Expr
  | .expr value => [value]
  | .inline (.list items) _ => items
  | .inline _ _ => []

namespace Layout

/-- The expressions of the fields, in order. -/
def exprs (l : Layout) : List Expr := l.fields.flatMap fun f => f.source.exprs

@[simp]
theorem exprs_append (a b : Layout) : (a.append b).exprs = a.exprs ++ b.exprs :=
  List.flatMap_append

/-- Fields with one expression each. -/
theorem flatMap_exprs_mapIdx {make : Nat → Expr → Field}
    (h : ∀ i value, (make i value).source = .expr value) (values : List Expr) :
    (values.mapIdx make).flatMap (fun f => f.source.exprs) = values := by
  induction values generalizing make with
  | nil => rfl
  | cons value values ih =>
    rw [List.mapIdx_cons, List.flatMap_cons, h, ih fun i value => h (i + 1) value]
    rfl

theorem exprs_ints (start width : Nat) (values : List Expr) :
    exprs { fields := Field.ints start width values } = values :=
  flatMap_exprs_mapIdx (fun _ _ => rfl) values

theorem exprs_pointers (values : List Expr) :
    exprs { fields := values.mapIdx fun i value => .pointer (i * 4) 4 (.expr value) } = values :=
  flatMap_exprs_mapIdx (fun _ _ => rfl) values

theorem exprs_inline {start width element : Nat} {data : Arg}
    (h : ∀ value, data = .expr value → False) :
    exprs { fields := [.pointer start width (.inline data element)] } = data.exprs := by
  cases data with
  | expr value => exact (h value rfl).elim
  | list items => exact List.append_nil items
  | text content => rfl

/-- The fields for an argument hold its expressions. -/
theorem exprs_ofArg {code : Code} {param : Param} {arg : Arg} {l : Layout}
    (h : ofArg code param arg = .ok l) : l.exprs = arg.exprs := by
  simp only [ofArg] at h
  split at h
  -- A number or an address, told by one expression.
  · rw [← Except.ok.inj h]
    rfl
  · rw [← Except.ok.inj h]
    rfl
  · rw [← Except.ok.inj h]
    rfl
  -- The address of data; an expression would be the address itself.
  · rename_i hnot
    rw [← Except.ok.inj h]
    exact exprs_inline hnot
  · rename_i hnot
    rw [← Except.ok.inj h]
    exact exprs_inline hnot
  -- A text has no expressions, unless it is told byte by byte.
  · split at h
    · rw [← Except.ok.inj h]
      rfl
    · simp at h
  · split at h
    · rw [← Except.ok.inj h]
      exact exprs_ints ..
    · simp at h
  -- The elements of an array.
  · split at h
    · rw [← Except.ok.inj h]
      exact exprs_ints ..
    · simp at h
  · simp at h

/-- The fields for arguments hold their expressions. -/
theorem exprs_ofArgs {code : Code} {pairs : List (Param × Arg)} {l : Layout}
    (h : ofArgs code pairs = .ok l) : l.exprs = pairs.flatMap fun pair => pair.2.exprs := by
  induction pairs generalizing l with
  | nil =>
    rw [← Except.ok.inj h]
    rfl
  | cons pair pairs ih =>
    simp only [ofArgs] at h
    split at h
    · simp at h
    · rename_i first hfirst
      obtain ⟨rest, hrest, rfl⟩ := Except.map_eq_ok_iff.1 h
      rw [exprs_append, exprs_ofArg hfirst, ih hrest, List.flatMap_cons]

/-- The fields of a statement hold expressions of the statement. -/
theorem mem_exprs_of_ofStatement {statement : Statement} {size : Nat} {registry : Registry}
    {l : Layout} (h : ofStatement statement size registry = .ok l) :
    ∀ e ∈ l.exprs, e ∈ statement.exprs := by
  intro e he
  cases statement with
  | code index args =>
    simp only [ofStatement] at h
    split at h
    · simp at h
    · obtain ⟨rest, hrest, rfl⟩ := Except.map_eq_ok_iff.1 h
      rw [exprs_append, exprs_ofArgs hrest] at he
      -- The id of the code is fixed; every other part belongs to an argument of the statement.
      have he := (List.mem_append.1 he).resolve_left (by simp [exprs])
      obtain ⟨pair, hpair, he⟩ := List.mem_flatMap.1 he
      exact List.mem_flatMap.2 ⟨pair.2, (List.of_mem_zip hpair).2, he⟩
  | data width values =>
    rw [← Except.ok.inj h, exprs_ints] at he
    exact he
  | pointers values =>
    rw [← Except.ok.inj h, exprs_pointers] at he
    exact he
  | fill count value =>
    rw [← Except.ok.inj h, exprs_ints] at he
    simp [List.eq_of_mem_replicate he, Statement.exprs]
  | _ =>
    rw [← Except.ok.inj h] at he
    simp [exprs] at he

end Layout

/-! ## Statements -/

/-- What is asked of the faults of a statement: those of its expressions and those of its arguments
    are as told. -/
structure Statement.FailsOnly (P : AssembleFault → Prop) (registry : Registry) (final : Symbols)
    (statement : Statement) : Prop where
  exprs : ∀ e ∈ statement.exprs, e.FailsOnly P final
  layout : ∀ size, (Layout.ofStatement statement size registry).FailsOnly P

section Values

variable {P : AssembleFault → Prop} (hplain : ∀ f : AssembleFault, f.Plain → P f) {registry : Registry}
  {final : Symbols}

include hplain

theorem failsOnly_constantFor {e : Expr} (he : e.FailsOnly P final) (keyword : String)
    (s : SymbolSource) (here : UInt32) : (constantFor keyword e s here).FailsOnly P := by
  unfold constantFor
  split
  · exact .ok _
  · exact .error (hplain _ trivial)
  · rename_i fault hfault
    exact .error (he.eval s here fault hfault)

/-- A step past a statement fails because of its expressions or because there is no such code. -/
theorem Cursor.failsOnly_step {statement : Statement} (hs : statement.FailsOnly P registry final)
    (c : Cursor) (s : SymbolSource) : (c.step statement registry s).FailsOnly P := by
  cases statement with
  | code index args =>
    have hlayout := hs.layout 0
    simp only [Layout.ofStatement] at hlayout
    simp only [step]
    split
    · exact .ok _
    · -- The layout of the statement would have the same fault.
      rename_i hnone
      rw [hnone] at hlayout
      exact .error (hlayout _ rfl)
  | fill count value =>
    have hcount := hs.exprs count (by simp [Statement.exprs])
    exact (failsOnly_constantFor hplain hcount "FILL" s c.offset).bind fun n _ =>
      ((c.failsOnly_fillSize n).mono hplain).bind fun _ _ => .ok _
  | org target =>
    have htarget := hs.exprs target (by simp [Statement.exprs])
    exact (failsOnly_constantFor hplain htarget "ORG" s c.offset).bind fun v _ =>
      ((failsOnly_toOffset v c.base).mono hplain).bind fun _ _ => .ok _
  | align multiple =>
    have hmultiple := hs.exprs multiple (by simp [Statement.exprs])
    exact (failsOnly_constantFor hplain hmultiple "ALIGN" s c.offset).bind fun _ _ => .ok _
  | pop =>
    simp only [step]
    split
    · exact .ok _
    · exact .error (hplain _ trivial)
  | data | pointers | bytes | push | label | constant | protect | assertion | report => exact .ok _

namespace Assembly

theorem Protection.failsOnly_resolve {start : Expr} {stop : Option Expr}
    (hexprs : ∀ e ∈ start :: stop.toList, e.FailsOnly P final) (here base : UInt32) :
    (resolve start stop here final base).FailsOnly P := by
  have horder (first last : UInt32) : (if last < first then .error (.protectReversed first last)
      else .ok ⟨first, last⟩ : Except AssembleFault Protection).FailsOnly P :=
    .ite (fun _ => .error (hplain _ trivial)) (fun _ => .ok _)
  obtain ⟨hstart, hstop⟩ := List.forall_mem_cons.1 hexprs
  refine (hstart.resolve here).bind fun v _ => ?_
  refine ((failsOnly_toOffset v base).mono hplain).bind fun first _ => ?_
  -- The end of the range is a value of its own, or four bytes after the start.
  cases stop with
  | none => exact horder first _
  | some e =>
    exact ((hstop e (by simp)).resolve here).bind fun w _ =>
      ((failsOnly_toOffset w base).mono hplain).bind fun last _ => horder first last

theorem PlacedField.failsOnly_resolve {f : PlacedField}
    (hexprs : ∀ e ∈ f.source.exprs, e.FailsOnly P final) (here base : UInt32) :
    (f.resolve final here base).FailsOnly P := by
  unfold resolve
  cases hsource : f.source with
  | expr value =>
    have hvalue := (hexprs value (by simp [hsource, FieldSource.exprs])).resolve here
    cases hresolve : final.resolve value here with
    | ok v =>
      simp only [hresolve]
      exact (f.failsOnly_encode v base).mono hplain
    | error fault =>
      simp only [hresolve]
      exact .error (hvalue fault hresolve)
  | inline data element => exact (f.failsOnly_encode _ base).mono hplain

theorem OnePass.failsOnly_knownPatch? {f : Field}
    (hexprs : ∀ e ∈ f.source.exprs, e.FailsOnly P final) (early : Symbols) (here base : UInt32) :
    (knownPatch? early here base f).FailsOnly P := by
  unfold knownPatch?
  cases hsource : f.source with
  | expr value =>
    have hvalue := hexprs value (by simp [hsource, FieldSource.exprs])
    simp only
    split
    · exact ((f.failsOnly_encode _ base).mono hplain).map some
    · exact .ok _
    · rename_i fault hfault
      exact .error (hvalue.eval _ _ fault hfault)
  | inline data element => exact .ok _

end Assembly

theorem Arg.failsOnly_elementBytes (element : Nat) {items : List Expr}
    (hitems : ∀ e ∈ items, e.FailsOnly P final) (offset : UInt32) :
    (elementBytes element final offset items).FailsOnly P := by
  induction items generalizing offset with
  | nil => exact .ok _
  | cons item items ih =>
    obtain ⟨hitem, hrest⟩ := List.forall_mem_cons.1 hitems
    have hfirst : ((final.resolve item offset).bind (Encoding.int · element)).FailsOnly P :=
      (hitem.resolve offset).bind fun v _ => (Encoding.failsOnly_int v element).mono hplain
    rw [elementBytes]
    split
    · rename_i fault hfault
      exact .error (hfirst fault hfault)
    · exact (ih hrest _).map _

theorem Arg.failsOnly_inlineBytes {data : Arg} {element : Nat}
    (hdata : ∀ e ∈ (FieldSource.inline data element).exprs, e.FailsOnly P final) (offset : UInt32) :
    (data.inlineBytes element offset final).FailsOnly P := by
  cases data with
  | list items => exact failsOnly_elementBytes hplain element hdata offset
  | text content | expr value => exact .ok _

end Values

/-! ## Events -/

/-- Events the faults of which are as told. -/
def Event.Only (P : AssembleFault → Prop) (events : List Event) : Prop :=
  ∀ position f, .fault position f ∈ events → P f

namespace Event

variable {P : AssembleFault → Prop}

@[simp]
theorem only_nil : Only P [] := fun _ _ h => absurd h List.not_mem_nil

@[simp]
theorem only_append {xs ys : List Event} : Only P (xs ++ ys) ↔ Only P xs ∧ Only P ys := by
  simp only [Only, List.mem_append, or_imp, forall_and]

theorem only_flatMap {α : Type} {l : List α} {f : α → List Event} (h : ∀ a ∈ l, Only P (f a)) :
    Only P (l.flatMap f) := by
  intro position fault hfault
  obtain ⟨a, ha, hmem⟩ := List.mem_flatMap.1 hfault
  exact h a ha position fault hmem

theorem only_note (severity : Severity) (position : Position) (text : String) :
    Only P [.note severity position text] := by
  intro _ _ h
  cases List.mem_singleton.1 h

theorem only_fault {f : AssembleFault} (position : Position) (h : P f) :
    Only P [.fault position f] := by
  intro _ _ hfault
  cases List.mem_singleton.1 hfault
  exact h

theorem only_ofOutcome {α : Type} {x : Except AssembleFault α} (position : Position)
    (h : x.FailsOnly P) : Only P (ofOutcome position x) := by
  cases x with
  | ok a => exact only_nil
  | error f => exact only_fault position (h f rfl)

end Event

namespace Assembly

/-! ## Walks -/

namespace Walk

variable {registry : Registry}

theorem waiting_declare (w : Walk) (position : Position) (name : String) (value : Int64) :
    (w.declare position name value).waiting = w.waiting := by
  unfold declare
  split <;> rfl

@[simp]
theorem waiting_move (w : Walk) (registry : Registry) (statement : Located Statement) :
    (w.move registry statement).2.waiting = w.waiting := by
  unfold move
  split <;> rfl

variable {w : Walk} {program : Program} {statement : Located Statement} {Q : Expr → Prop}
  {p : Passage}

/-- The constants that wait are those of statements. -/
theorem waiting_pass (hs : ∀ e ∈ statement.value.exprs, Q e)
    (hw : ∀ c ∈ w.waiting.toList, Q c.value) :
    ∀ c ∈ (w.pass registry statement).waiting.toList, Q c.value := by
  obtain ⟨position, statement⟩ := statement
  rw [pass, waiting_move]
  cases statement with
  | label name =>
    show ∀ c ∈ ((w.noting _).declare position name _).waiting.toList, Q c.value
    rw [waiting_declare]
    exact hw
  | constant name value =>
    have hvalue : Q value := hs value (by simp [Statement.exprs])
    simp only [enter, Walk.name]
    split
    · rw [waiting_declare]
      exact hw
    · rw [Array.toList_push]
      exact List.forall_mem_append.2 ⟨hw, List.forall_mem_singleton.2 hvalue⟩
    · exact hw
  | _ => exact hw

theorem waiting_passAll (hs : ∀ st ∈ program, ∀ e ∈ st.value.exprs, Q e)
    (hw : ∀ c ∈ w.waiting.toList, Q c.value) :
    ∀ c ∈ (w.passAll registry program).waiting.toList, Q c.value := by
  induction program generalizing w with
  | nil => exact hw
  | cons statement program ih =>
    obtain ⟨hfirst, hrest⟩ := List.forall_mem_cons.1 hs
    exact ih hrest (waiting_pass hfirst hw)

theorem statement_mem_of_mem_trail (h : p ∈ w.trail registry program) :
    p.slot.statement ∈ program := by
  have hmem := List.mem_map_of_mem (f := fun p : Passage => p.slot.statement) h
  rwa [map_statement_trail] at hmem

variable {P : AssembleFault → Prop} (hplain : ∀ f : AssembleFault, f.Plain → P f) {final : Symbols}

include hplain

theorem only_nameEvents (hs : statement.value.FailsOnly P registry final) (w : Walk) :
    Event.Only P (w.nameEvents statement) := by
  obtain ⟨position, statement⟩ := statement
  cases statement with
  | label name => exact Event.only_ofOutcome _ ((Symbols.failsOnly_declare _ _ _).mono hplain)
  | constant name value =>
    have hvalue := hs.exprs value (by simp [Statement.exprs])
    simp only [nameEvents]
    split
    · exact Event.only_ofOutcome _ ((Symbols.failsOnly_declare _ _ _).mono hplain)
    · exact Event.only_nil
    · rename_i fault hfault
      exact Event.only_fault _ (hvalue.eval _ _ fault hfault)
  | _ => exact Event.only_nil

/-- What is reported on the way comes from the statements. -/
theorem only_of_mem_trail (hs : ∀ st ∈ program, st.value.FailsOnly P registry final)
    (h : p ∈ w.trail registry program) : Event.Only P p.naming ∧ Event.Only P p.moving := by
  obtain ⟨v, statement, hstatement, rfl, _⟩ := mem_trail registry h
  have hstatement := hs statement hstatement
  exact ⟨only_nameEvents hplain hstatement (v.noting statement),
    Event.only_ofOutcome _ (Cursor.failsOnly_step hplain hstatement _ _)⟩

/-- What is reported of constants that wait comes from the statements. -/
theorem only_settleEvents (hw : ∀ c ∈ w.waiting.toList, c.value.FailsOnly P w.settle.symbols) :
    Event.Only P w.settleEvents := by
  intro position f hf
  obtain ⟨c, hc, heq⟩ := List.mem_map.1 hf
  cases heq
  exact Symbols.failsOnly_settle (fun _ => hplain _ trivial) hw c hc

end Walk

/-! ## Places -/

section Places

variable {P : AssembleFault → Prop} (hplain : ∀ f : AssembleFault, f.Plain → P f)

include hplain

theorem Placing.only_fieldsEvents (position : Position) (fs : List Field) (p : Placing) :
    Event.Only P (fieldsEvents position fs p) := by
  induction fs generalizing p with
  | nil => exact Event.only_nil
  | cons f fs ih =>
    rw [fieldsEvents]
    cases f.source with
    | expr value => exact ih p
    | inline data element =>
      refine Event.only_append.2 ⟨?_, ih _⟩
      unfold placeEvents
      split
      · exact Event.only_nil
      · exact Event.only_ofOutcome _ ((Allocator.failsOnly_allocateData _ _).mono hplain)

theorem only_placeTrailEvents (registry : Registry) (trail : List Passage) (p : Placing) :
    Event.Only P (placeTrailEvents registry trail p) := by
  induction trail generalizing p with
  | nil => exact Event.only_nil
  | cons passage trail ih =>
    rw [placeTrailEvents]
    split
    · exact ih p
    · exact Event.only_append.2 ⟨Placing.only_fieldsEvents hplain _ _ p, ih _⟩

end Places

/-! ## Passages and items -/

variable {registry : Registry} {item : Item}

theorem Passage.of_writes? {p : Passage} {span : Span} {l : Layout}
    (h : p.writes? registry = some (span, l)) : p.slot.span = some span ∧
      Layout.ofStatement p.slot.statement.value span.size registry = .ok l := by
  obtain ⟨span', hspan, h⟩ := Option.bind_eq_some_iff.1 h
  obtain ⟨l', hl, h⟩ := Option.map_eq_some_iff.1 h
  obtain ⟨rfl, rfl⟩ := Prod.mk.inj h
  exact ⟨hspan, Except.toOption_eq_some_iff.1 hl⟩

/-- The layout of an item with a piece. -/
theorem Item.Fits.layout (h : item.Fits registry) {piece : Piece} (hp : item.piece = some piece) :
    Layout.ofStatement item.passage.slot.statement.value piece.span.size registry =
      .ok piece.layout := by
  have hwrites := h.writes
  rw [hp, Option.map_some] at hwrites
  exact (Passage.of_writes? hwrites).2

/-- The fields of an item hold expressions of its statement. -/
theorem Item.Fits.mem_exprs (h : item.Fits registry) {f : PlacedField} (hf : f ∈ item.fields) :
    ∀ e ∈ f.source.exprs, e ∈ item.passage.slot.statement.value.exprs := by
  intro e he
  obtain ⟨piece, hp, hf⟩ := List.mem_flatMap.1 hf
  have hp := Option.mem_toList.1 hp
  have hfield : f.toField ∈ piece.layout.fields := by
    rw [← h.fields piece hp]
    exact List.mem_map_of_mem hf
  exact Layout.mem_exprs_of_ofStatement (h.layout hp) e (List.mem_flatMap.2 ⟨_, hfield, he⟩)

section Reports

variable {P : AssembleFault → Prop} (hplain : ∀ f : AssembleFault, f.Plain → P f) {context : Context}
  {final : Symbols} {p : Passage}

theorem Passage.only_alignment (registry : Registry) (p : Passage) (span : Span) :
    Event.Only P (p.alignment registry span) := by
  unfold alignment
  split
  · exact Event.only_note _ _ _
  · exact Event.only_nil

theorem Passage.failsOnly_of_misfit? {registry : Registry}
    (hs : p.slot.statement.value.FailsOnly P registry final) {span : Span} {fault : AssembleFault}
    (h : p.misfit? registry = some (span, fault)) : P fault := by
  obtain ⟨span', _, h⟩ := Option.bind_eq_some_iff.1 h
  split at h
  · simp at h
  · rename_i fault' hfault
    obtain ⟨rfl, rfl⟩ := Prod.mk.inj (Option.some.inj h)
    exact hs.layout _ _ hfault

include hplain

theorem failsOnly_assertion {condition : Expr} (h : condition.FailsOnly P final) (here : UInt32) :
    ((final.resolve condition here).bind checkAssertion).FailsOnly P :=
  (h.resolve here).bind fun v _ => (failsOnly_checkAssertion v).mono hplain

variable (hs : p.slot.statement.value.FailsOnly P context.registry final)

include hs

theorem Passage.only_spoken : Event.Only P (p.spoken final) := by
  unfold spoken
  cases hvalue : p.slot.statement.value with
  | assertion condition =>
    have hcondition := hs.exprs condition (by simp [hvalue, Statement.exprs])
    exact Event.only_ofOutcome _ (failsOnly_assertion hplain hcondition _)
  | report severity text => exact Event.only_note severity _ text
  | _ => exact Event.only_nil

theorem Passage.only_spokenNow : Event.Only P p.spokenNow := by
  unfold spokenNow
  cases hvalue : p.slot.statement.value with
  | assertion condition =>
    have hcondition := hs.exprs condition (by simp [hvalue, Statement.exprs])
    simp only
    split
    · exact Event.only_ofOutcome _ ((failsOnly_checkAssertion _).mono hplain)
    · exact Event.only_nil
    · rename_i fault hfault
      exact Event.only_fault _ (hcondition.eval _ _ fault hfault)
  | report severity text => exact Event.only_note severity _ text
  | _ => exact Event.only_nil

theorem Passage.only_spokenLater : Event.Only P (p.spokenLater final) := by
  refine Event.only_flatMap fun a ha => ?_
  have ha := Option.mem_toList.1 ha
  unfold openAssertion? at ha
  split at ha
  · rename_i condition hvalue
    have hcondition := hs.exprs condition (by simp [hvalue, Statement.exprs])
    split at ha
    · rw [← Option.some.inj ha]
      exact Event.only_ofOutcome _ (failsOnly_assertion hplain hcondition _)
    · simp at ha
  · simp at ha

theorem Passage.only_emittedNow : Event.Only P (p.emittedNow context) := by
  unfold emittedNow
  split
  · exact Event.only_nil
  · refine Event.only_append.2 ⟨only_alignment _ _ _, ?_⟩
    split
    · rename_i fault hfault
      exact Event.only_fault _ (hs.layout _ fault hfault)
    · rename_i layout hlayout
      refine Event.only_flatMap fun f hf => Event.only_ofOutcome _ ?_
      -- A field holds expressions of the statement.
      refine OnePass.failsOnly_knownPatch? hplain (fun e he => hs.exprs e ?_) _ _ _
      exact Layout.mem_exprs_of_ofStatement hlayout e (List.mem_flatMap.2 ⟨f, hf, he⟩)

end Reports

namespace Item

variable {P : AssembleFault → Prop} (hplain : ∀ f : AssembleFault, f.Plain → P f) {context : Context}
  {final : Symbols} {item : Item}

include hplain

theorem only_checked (protections : List Protection) (size : Nat) :
    Event.Only P (item.checked protections size) :=
  Event.only_flatMap fun piece _ =>
    Event.only_ofOutcome _ ((failsOnly_checkWrite piece.span size protections).mono hplain)

variable (hfits : item.Fits context.registry)
  (hs : item.passage.slot.statement.value.FailsOnly P context.registry final)

include hfits hs

/-- What is reported of fields of an item comes from its statement. -/
theorem only_fieldEvents {fields : List PlacedField} (h : ∀ f ∈ fields, f ∈ item.fields)
    (position : Position) (here base : UInt32) :
    Event.Only P (PlacedField.events final position here base fields) := by
  refine Event.only_flatMap fun f hf => Event.only_ofOutcome _ ?_
  exact PlacedField.failsOnly_resolve hplain (fun e he => hs.exprs e (hfits.mem_exprs (h f hf) e he))
    here base

theorem only_emitted (protections : List Protection) (size : Nat) :
    Event.Only P (item.emitted context final protections size) := by
  refine Event.only_append.2 ⟨Passage.only_spoken hplain hs, ?_⟩
  split
  · rename_i piece hp
    refine Event.only_append.2 ⟨Event.only_append.2 ⟨Passage.only_alignment _ _ _, ?_⟩,
      only_checked hplain protections size⟩
    exact only_fieldEvents hplain hfits hs (fun f hf => by simp [fields, hp, hf]) _ _ _
  · rename_i span fault _ hmisfit
    exact Event.only_append.2 ⟨Passage.only_alignment _ _ _,
      Event.only_fault _ (Passage.failsOnly_of_misfit? hs hmisfit)⟩
  · exact Event.only_nil

theorem only_filled : Event.Only P (item.filled context final) := by
  refine Event.only_flatMap fun chunk hchunk => ?_
  obtain ⟨piece, hp, rfl⟩ := Option.map_eq_some_iff.1 (Option.mem_toList.1 hchunk)
  -- The fields that were left open are some of the item's.
  refine only_fieldEvents hplain hfits hs (fun f hf => ?_) _ _ _
  simp [fields, hp, (List.mem_filter.1 hf).1]

end Item

/-! ## Courses -/

namespace Course

variable {span? : Passage → Option Span} {program : Program} {context : Context} {image : Image}
  {P : AssembleFault → Prop} (hplain : ∀ f : AssembleFault, f.Plain → P f)
  (hs : ∀ st ∈ program,
    st.value.FailsOnly P context.registry (along span? program context image).symbols)

theorem map_passage_along :
    (along span? program context image).items.map Item.passage =
      (along span? program context image).trail :=
  map_passage_placeTrail ..

theorem passage_mem_trail {item : Item} (h : item ∈ (along span? program context image).items) :
    item.passage ∈ (along span? program context image).trail := by
  rw [← map_passage_along]
  exact List.mem_map_of_mem h

include hplain hs

theorem only_preparing : Event.Only P (along span? program context image).preparing := by
  refine Event.only_append.2 ⟨Event.only_append.2 ⟨?_, Event.only_flatMap fun request hrequest => ?_⟩,
    only_placeTrailEvents hplain _ _ _⟩
  · -- The constants that wait at the end of the walk are those of statements.
    refine Walk.only_settleEvents hplain (Walk.waiting_passAll (fun st hst => (hs st hst).exprs) ?_)
    simp [Walk.start]
  · refine Event.only_ofOutcome _ ?_
    obtain ⟨p, hp, hprotection⟩ := List.mem_filterMap.1 hrequest
    have hstatement := hs _ (Walk.statement_mem_of_mem_trail hp)
    -- What is to be protected is told by the expressions of the statement.
    unfold TwoPass.Slot.protection? at hprotection
    split at hprotection
    · rename_i start stop hvalue
      rw [← Option.some.inj hprotection]
      refine Protection.failsOnly_resolve hplain (fun e he => hstatement.exprs e ?_) _ _
      rw [hvalue]
      exact he
    · simp at hprotection

theorem only_blocks : Event.Only P ((along span? program context image).blocks.flatMap
    (InlineBlock.events (along span? program context image).symbols)) := by
  refine Event.only_flatMap fun b hb => ?_
  unfold InlineBlock.events
  split
  · exact Event.only_nil
  · -- The data of a block is that of a field.
    obtain ⟨f, hf, hsource, -⟩ := (blocksFor span? program context image).1.field hb
    obtain ⟨item, hitem, hf⟩ := List.mem_flatMap.1 hf
    have hexprs := (fits_of_mem_placeTrail hitem).mem_exprs hf
    rw [hsource] at hexprs
    have hstatement := hs _ (Walk.statement_mem_of_mem_trail (passage_mem_trail hitem))
    exact Event.only_ofOutcome _ (Arg.failsOnly_inlineBytes hplain
      (fun e he => hstatement.exprs e (hexprs e he)) _)

theorem only_twoPassEvents (size : Nat) :
    Event.Only P ((along span? program context image).twoPassEvents context size) := by
  simp only [twoPassEvents, Event.only_append]
  refine ⟨⟨⟨Event.only_flatMap fun p hp => ?_, only_preparing hplain hs⟩,
    Event.only_flatMap fun item hitem => ?_⟩, only_blocks hplain hs⟩
  · exact Event.only_append.2 (Walk.only_of_mem_trail hplain hs hp)
  · exact Item.only_emitted hplain (fits_of_mem_placeTrail hitem)
      (hs _ (Walk.statement_mem_of_mem_trail (passage_mem_trail hitem))) _ _

theorem only_onePassEvents (size : Nat) :
    Event.Only P ((along span? program context image).onePassEvents context size) := by
  have hstatement {p : Passage} (hp : p ∈ (along span? program context image).trail) :=
    hs _ (Walk.statement_mem_of_mem_trail hp)
  simp only [onePassEvents, Event.only_append]
  refine ⟨⟨⟨⟨⟨Event.only_flatMap fun p hp => ?_, only_preparing hplain hs⟩,
    Event.only_flatMap fun item hitem => ?_⟩, Event.only_flatMap fun p hp => ?_⟩,
    Event.only_flatMap fun item hitem => ?_⟩, only_blocks hplain hs⟩
  · have hnamed := Walk.only_of_mem_trail hplain hs hp
    simp only [Passage.reportedNow, Event.only_append]
    exact ⟨⟨⟨hnamed.1, Passage.only_spokenNow hplain (hstatement hp)⟩, hnamed.2⟩,
      Passage.only_emittedNow hplain (hstatement hp)⟩
  · exact Item.only_filled hplain (fits_of_mem_placeTrail hitem)
      (hstatement (passage_mem_trail hitem))
  · exact Passage.only_spokenLater hplain (hstatement hp)
  · exact Item.only_checked hplain _ _

end Course

end Assembly

/-- What holds of plain faults and of the faults of all statements holds of all faults that an engine
    reports. -/
theorem Engine.only_events {P : AssembleFault → Prop} (hplain : ∀ f : AssembleFault, f.Plain → P f)
    {engine : Engine} {program : Program} {context : Assembly.Context} {image : Image}
    (hs : ∀ st ∈ program,
      st.value.FailsOnly P context.registry (engine.course program context image).symbols) :
    Event.Only P (engine.events program context image) := by
  cases engine with
  | twoPass => exact Assembly.Course.only_twoPassEvents hplain hs image.size
  | onePass => exact Assembly.Course.only_onePassEvents hplain hs image.size

end CartScript
