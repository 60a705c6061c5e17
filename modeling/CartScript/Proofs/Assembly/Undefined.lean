import CartScript.Proofs.Assembly.Diagnostics
import CartScript.Proofs.Assembly.Mentions
import CartScript.Proofs.Assembly.Naming

/-!
# Undefined symbols

An assembly that does not fail has evaluated every expression of its program, and has found a value for
every name in it; only the value of a fill without bytes is never asked for.  All values come from labels
and constants, so these declare all names.  A name without a value is reported, once, and with the place
of its first mention.
-/

namespace CartScript

/-! ## What a success needs -/

/-- The expression that must have a value where its statement stands. -/
def Statement.moves? : Statement → Option Expr
  | .org e | .align e | .fill e _ => some e
  | _ => none

/-- The expressions whose values a statement writes into a number of bytes. -/
def Statement.written (size : Nat) : Statement → List Expr
  | .code _ args => args.flatMap Arg.exprs
  | .data _ values | .pointers values => values
  | .fill _ value => List.replicate size value
  | _ => []

variable {symbols : Symbols} {s : SymbolSource} {statement : Statement} {c next : Cursor}
  {element size : Nat} {e : Expr} {base here offset : UInt32} {bytes : List UInt8}
  {program : Program} {image : Image} {v : Int64}

theorem eval_of_constantFor {keyword : String} (h : constantFor keyword e s here = .ok v) :
    e.eval s here = .ok (.known v) := by
  unfold constantFor at h
  split at h
  · rename_i heval
    rw [heval, Except.ok.inj h]
  · simp at h
  · simp at h

theorem Cursor.known_of_step {registry : Registry} {r : Option Span × Cursor}
    (h : c.step statement registry s = .ok r) (he : statement.moves? = some e) :
    ∃ v, e.eval s c.offset = .ok (.known v) := by
  cases statement with
  | org target | align multiple | fill count value =>
    obtain rfl := Option.some.inj he
    obtain ⟨v, hv, _⟩ := Except.bind_eq_ok_iff.1 h
    exact ⟨v, eval_of_constantFor hv⟩
  | _ => simp [Statement.moves?] at he

/-- A statement that writes values writes bytes. -/
theorem Cursor.exists_span_of_step {registry : Registry} {span? : Option Span}
    (h : c.step statement registry s = .ok (span?, next)) (he : e ∈ statement.written size) :
    ∃ span, span? = some span := by
  cases statement with
  | code index args =>
    simp only [step] at h
    split at h
    · exact ⟨_, (congrArg Prod.fst (Except.ok.inj h)).symm⟩
    · simp at h
  | data width values | pointers values => exact ⟨_, (congrArg Prod.fst (Except.ok.inj h)).symm⟩
  | fill count value =>
    obtain ⟨n, _, hfill⟩ := Except.bind_eq_ok_iff.1 h
    obtain ⟨size, _, hadvance⟩ := Except.bind_eq_ok_iff.1 hfill
    exact ⟨_, (congrArg Prod.fst (Except.ok.inj hadvance)).symm⟩
  | _ => simp [Statement.written] at he

/-- The number of bytes that are filled is the count, which is not negative. -/
theorem Cursor.fillSize_eq_ok {count : Int64} (h : c.fillSize count = .ok size) :
    0 ≤ count.toInt ∧ size = count.toInt.toNat := by
  unfold fillSize at h
  split at h
  · simp at h
  · rename_i hpos
    simp only at h
    split at h
    · simp at h
    · rw [Int64.lt_iff_toInt_lt] at hpos
      exact ⟨by simpa using hpos, (Except.ok.inj h).symm⟩

/-- A fill of a number of bytes other than zero writes some. -/
theorem Cursor.size_of_fill {count value : Expr} {registry : Registry} {span : Span}
    (h : c.step (.fill count value) registry s = .ok (some span, next)) {n : Int64}
    (hn : count.eval s c.offset = .ok (.known n)) (hne : n ≠ 0) : span.size ≠ 0 := by
  obtain ⟨m, hm, hfill⟩ := Except.bind_eq_ok_iff.1 h
  obtain ⟨size, hsize, hadvance⟩ := Except.bind_eq_ok_iff.1 hfill
  obtain rfl : n = m := by simpa [hn] using eval_of_constantFor hm
  have hspan : span.size = size := by
    rw [← Option.some.inj (congrArg Prod.fst (Except.ok.inj hadvance))]
  obtain ⟨hnonneg, hsize⟩ := fillSize_eq_ok hsize
  have hzero : n.toInt ≠ 0 := fun h0 => hne (Int64.toInt_inj.1 h0)
  omega

theorem Assembly.Protection.knows_of_resolve {start : Expr} {stop : Option Expr}
    {protection : Protection} (h : resolve start stop here symbols base = .ok protection) :
    ∀ e ∈ start :: stop.toList, symbols.Knows e := by
  obtain ⟨v, hv, h⟩ := Except.bind_eq_ok_iff.1 h
  obtain ⟨first, _, h⟩ := Except.bind_eq_ok_iff.1 h
  refine List.forall_mem_cons.2 ⟨Symbols.knows_of_resolve hv, ?_⟩
  cases stop with
  | none => simp
  | some e =>
    obtain ⟨w, hw, _⟩ := Except.bind_eq_ok_iff.1 h
    simpa using Symbols.knows_of_resolve hw

theorem Assembly.PlacedField.knows_of_resolve {f : PlacedField} {patch : Patch}
    (h : f.resolve symbols here base = .ok patch) (he : f.source = .expr e) : symbols.Knows e := by
  simp only [resolve, he] at h
  split at h
  · rename_i hv
    exact Symbols.knows_of_resolve hv
  · simp at h

theorem Arg.knows_of_elementBytes {items : List Expr}
    (h : elementBytes element symbols offset items = .ok bytes) : ∀ e ∈ items, symbols.Knows e := by
  induction items generalizing offset bytes with
  | nil => simp
  | cons item items ih =>
    rw [elementBytes] at h
    split at h
    · simp at h
    · rename_i hfirst
      obtain ⟨rest, hrest, _⟩ := Except.map_eq_ok_iff.1 h
      obtain ⟨v, hv, _⟩ := Except.bind_eq_ok_iff.1 hfirst
      exact List.forall_mem_cons.2 ⟨Symbols.knows_of_resolve hv, ih hrest⟩

theorem Arg.knows_of_inlineBytes {data : Arg}
    (h : data.inlineBytes element offset symbols = .ok bytes) :
    ∀ e ∈ (FieldSource.inline data element).exprs, symbols.Knows e := by
  cases data with
  | list items => exact knows_of_elementBytes h
  | text content | expr value => simp [FieldSource.exprs]

/-- The fields of a sound statement hold all expressions whose values it writes. -/
theorem Layout.exprs_ofStatement {registry : Registry} (hs : statement.Sound registry) {l : Layout}
    (h : ofStatement statement size registry = .ok l) : l.exprs = statement.written size := by
  cases statement with
  | code index args =>
    obtain ⟨_, code, hat, hcheck⟩ := hs.code index args rfl
    simp only [ofStatement, hat] at h
    obtain ⟨rest, hrest, rfl⟩ := Except.map_eq_ok_iff.1 h
    -- There is a parameter for every argument.
    have hargs : (code.params.zip args).map Prod.snd = args :=
      List.map_snd_zip (Nat.le_of_eq (checkArgs_eq_ok_iff.1 hcheck).1)
    rw [exprs_append, exprs_ofArgs hrest, ← List.flatMap_map Prod.snd Arg.exprs, hargs]
    rfl
  | data width values =>
    rw [← Except.ok.inj h]
    exact exprs_ints ..
  | pointers values =>
    rw [← Except.ok.inj h]
    exact exprs_pointers values
  | fill count value =>
    rw [← Except.ok.inj h]
    exact exprs_ints ..
  | _ =>
    rw [← Except.ok.inj h]
    rfl

namespace Assembly

open OnePass (knownPatch?)
open SymbolSource (Solution)

/-! ## Courses without faults -/

theorem Item.Fits.misfit?_eq_none {registry : Registry} {item : Item} (h : item.Fits registry)
    {piece : Piece} (hp : item.piece = some piece) : item.passage.misfit? registry = none := by
  have hwrites := h.writes
  rw [hp, Option.map_some] at hwrites
  obtain ⟨hspan, hlayout⟩ := Passage.of_writes? hwrites
  simp [Passage.misfit?, hspan, hlayout]

theorem Item.Fits.exists_piece {registry : Registry} {item : Item} (h : item.Fits registry)
    (hfits : item.passage.misfit? registry = none) {span : Span}
    (hspan : item.passage.slot.span = some span) :
    ∃ piece, item.piece = some piece ∧ piece.span = span := by
  have hwrites := h.writes
  cases hlayout : Layout.ofStatement item.passage.slot.statement.value span.size registry with
  | error fault => simp [Passage.misfit?, hspan, hlayout] at hfits
  | ok layout =>
    simp only [Passage.writes?, hspan, Option.bind_some, hlayout, Except.toOption,
      Option.map_some] at hwrites
    obtain ⟨piece, hp, heq⟩ := Option.map_eq_some_iff.1 hwrites.symm
    exact ⟨piece, hp, congrArg Prod.fst heq⟩

section TwoPass

variable {context : Context} {final : Symbols} {protections : List Protection} {size : Nat}

/-- Arguments that do not fit are reported in the second pass. -/
theorem Item.Fits.misfit?_of_emitted {item : Item} (h : item.Fits context.registry)
    (hevents : Event.Faultless (item.emitted context final protections size)) :
    item.passage.misfit? context.registry = none := by
  cases hpiece : item.piece with
  | some piece => exact h.misfit?_eq_none hpiece
  | none =>
    cases hmisfit : item.passage.misfit? context.registry with
    | none => rfl
    | some found =>
      simp only [Item.emitted, hpiece, hmisfit, Event.faultless_append] at hevents
      exact absurd rfl (hevents.2.2 _ (List.mem_singleton_self _))

/-- An assertion that is checked has a value. -/
theorem exists_value_of_faultless {position : Position} {condition : Expr} {here : UInt32}
    (h : Event.Faultless
      (Event.ofOutcome position ((final.resolve condition here).bind checkAssertion))) :
    ∃ v, final.resolve condition here = .ok v := by
  obtain ⟨u, hu⟩ := Event.exists_of_faultless h
  obtain ⟨v, hv, _⟩ := Except.bind_eq_ok_iff.1 hu
  exact ⟨v, hv⟩

end TwoPass

section OnePass

variable {context : Context} {final : Symbols}

/-- Arguments that do not fit are reported on the way. -/
theorem Passage.misfit?_of_emittedNow {p : Passage} (h : Event.Faultless (p.emittedNow context)) :
    p.misfit? context.registry = none := by
  cases hspan : p.slot.span with
  | none => simp [misfit?, hspan]
  | some span =>
    simp only [emittedNow, hspan, Event.faultless_append] at h
    cases hlayout : Layout.ofStatement p.slot.statement.value span.size context.registry with
    | ok layout => simp [misfit?, hspan, hlayout]
    | error fault =>
      simp only [hlayout] at h
      exact absurd rfl (h.2 _ (List.mem_singleton_self _))

/-- An assertion has its value on the way, or it is left open and checked in the end. -/
theorem Passage.exists_value {p : Passage} (hwithin : p.symbols.source.Within final.source)
    (hnow : Event.Faultless p.spokenNow) (hlater : Event.Faultless (p.spokenLater final))
    {condition : Expr} (hvalue : p.slot.statement.value = .assertion condition) :
    ∃ v, final.resolve condition p.slot.here = .ok v := by
  simp only [spokenNow, hvalue] at hnow
  simp only [spokenLater, openAssertion?, hvalue] at hlater
  rcases heval : condition.eval p.symbols.source p.slot.here with fault | (v | name)
  · simp only [heval] at hnow
    exact absurd rfl (hnow _ (List.mem_singleton_self _))
  · exact ⟨v, Symbols.resolve_of_known hwithin heval⟩
  · simp only [heval, Option.toList_some, List.flatMap_singleton] at hlater
    exact exists_value_of_faultless hlater

/-- A field that is filled in on the way can be resolved in the end. -/
theorem PlacedField.exists_resolve {f : PlacedField} {early : Symbols} {here base : UInt32}
    (hwithin : early.source.Within final.source) {patch : Patch}
    (h : knownPatch? early here base f.toField = .ok (some patch)) :
    ∃ patch, f.resolve final here base = .ok patch := by
  unfold knownPatch? at h
  cases hsource : f.source with
  | inline data element => simp [hsource] at h
  | expr value =>
    simp only [hsource] at h
    split at h
    · rename_i hv
      obtain ⟨patch, hpatch, _⟩ := Except.map_eq_ok_iff.1 h
      exact ⟨patch, by simp only [resolve, hsource, Symbols.resolve_of_known hwithin hv, hpatch]⟩
    · simp at h
    · simp at h

/-- A field is filled in on the way, or it is left open and resolved in the end. -/
theorem Item.Fits.exists_resolve {item : Item} (h : item.Fits context.registry)
    (hwithin : item.passage.symbols.source.Within final.source)
    (hnow : Event.Faultless (item.passage.emittedNow context))
    (hfilled : Event.Faultless (item.filled context final)) {piece : Piece}
    (hp : item.piece = some piece) {f : PlacedField} (hf : f ∈ piece.fields) :
    ∃ patch, f.resolve final piece.span.offset context.pointerBase = .ok patch := by
  have hwrites := h.writes
  rw [hp, Option.map_some] at hwrites
  obtain ⟨hspan, hlayout⟩ := Passage.of_writes? hwrites
  simp only [Passage.emittedNow, hspan, hlayout, Event.faultless_append, OnePass.knownEvents,
    Event.faultless_flatMap] at hnow
  have hfield : f.toField ∈ piece.layout.fields := by
    rw [← h.fields piece hp]
    exact List.mem_map_of_mem hf
  obtain ⟨patch?, hpatch⟩ := Event.exists_of_faultless (hnow.2 _ hfield)
  cases patch? with
  | some patch => exact PlacedField.exists_resolve hwithin hpatch
  | none =>
    simp only [Item.filled, Item.chunk?, hp, Option.map_some, Option.toList_some,
      List.flatMap_singleton, PlacedField.events, Event.faultless_flatMap] at hfilled
    have hopen := (OnePass.isOpen_iff _ _ _).2 hpatch
    exact Event.exists_of_faultless (hfilled f (List.mem_filter.2 ⟨hf, hopen⟩))

end OnePass

namespace Course

/-- What the absence of faults says about a course, for either engine. -/
structure Flawless (context : Context) (size : Nat) (c : Course) : Prop extends
    Clean context size c where
  walked : ∀ p ∈ c.trail, Event.Faultless p.naming ∧ Event.Faultless p.moving
  preparing : Event.Faultless c.preparing
  fits : ∀ item ∈ c.items, item.passage.misfit? context.registry = none
  asserted : ∀ p ∈ c.trail, ∀ condition, p.slot.statement.value = .assertion condition →
    ∃ v, c.symbols.resolve condition p.slot.here = .ok v

variable {span? : Passage → Option Span} {program : Program} {context : Context} {image : Image}
  {size : Nat}

theorem exists_item {p : Passage} (h : p ∈ (along span? program context image).trail) :
    ∃ item ∈ (along span? program context image).items, item.passage = p := by
  rw [← map_passage_along] at h
  exact List.mem_map.1 h

/-- Names on the trail keep their values to the end. -/
theorem within_of_mem_trail {p : Passage} (h : p ∈ (along span? program context image).trail) :
    p.symbols.source.Within (along span? program context image).symbols.source := by
  obtain ⟨_, _, _, _, hwithin⟩ := Walk.mem_trail context.registry h
  exact hwithin.trans (Symbols.settle_within _ _)

theorem flawless_of_twoPassEvents
    (h : Event.Faultless ((along span? program context image).twoPassEvents context size)) :
    (along span? program context image).Flawless context size := by
  have hclean := clean_of_faultless h
  simp only [twoPassEvents, Event.faultless_append, Event.faultless_flatMap] at h
  obtain ⟨⟨⟨hwalked, hpreparing⟩, hitems⟩, _⟩ := h
  refine ⟨hclean, hwalked, hpreparing, fun item hitem => ?_, fun p hp condition hvalue => ?_⟩
  · exact (fits_of_mem_placeTrail hitem).misfit?_of_emitted (hitems item hitem)
  · obtain ⟨item, hitem, rfl⟩ := exists_item hp
    have hspoken := (Event.faultless_append.1 (hitems item hitem)).1
    simp only [Passage.spoken, hvalue] at hspoken
    exact exists_value_of_faultless hspoken

theorem flawless_of_onePassEvents
    (h : Event.Faultless ((along span? program context image).onePassEvents context size)) :
    (along span? program context image).Flawless context size := by
  simp only [onePassEvents, Passage.reportedNow, Event.faultless_append, Event.faultless_flatMap] at h
  obtain ⟨⟨⟨⟨⟨hnow, hpreparing⟩, hfilled⟩, hlater⟩, hchecked⟩, hblocks⟩ := h
  refine ⟨⟨?_, ?_, ?_⟩, ?_, hpreparing, ?_, ?_⟩
  · exact fun item hitem _ => checkWrite_of_faultless (hchecked item hitem)
  · intro item hitem piece hp f hf
    have htrail := passage_mem_trail hitem
    exact (fits_of_mem_placeTrail hitem).exists_resolve (within_of_mem_trail htrail)
      (hnow _ htrail).2 (hfilled item hitem) hp hf
  · exact fun b hb _ => exists_bytes_of_faultless (hblocks b hb)
  · exact fun p hp => ⟨(hnow p hp).1.1.1, (hnow p hp).1.2⟩
  · exact fun item hitem => Passage.misfit?_of_emittedNow (hnow _ (passage_mem_trail hitem)).2
  · exact fun p hp condition hvalue => Passage.exists_value (within_of_mem_trail hp)
      (hnow p hp).1.1.2 (hlater p hp) hvalue

end Course

end Assembly

/-- The course of either engine without faults is `Flawless`. -/
theorem Engine.flawless_course {engine : Engine} {context : Assembly.Context}
    (h : Event.Faultless (engine.events program context image)) :
    (engine.course program context image).Flawless context image.size := by
  cases engine with
  | twoPass => exact Assembly.Course.flawless_of_twoPassEvents h
  | onePass => exact Assembly.Course.flawless_of_onePassEvents h

namespace Assembly

open SymbolSource (Solution)

/-! ## All names have values -/

/-- The expressions of a statement that are evaluated.  The value of a fill without bytes is not. -/
def Passage.evaluated (p : Passage) : List Expr :=
  match p.slot.statement.value with
  | .fill count value =>
    match count.eval p.symbols.source p.slot.here with
    | .ok (.known n) => if n = 0 then [count] else [count, value]
    | _ => [count, value]
  | statement => statement.exprs

/-- Complaints without a fault are none. -/
theorem eq_nil_of_faultless {complaints : List Symbols.Complaint}
    (h : Event.Faultless (complaints.map fun c => .fault c.position c.value)) : complaints = [] := by
  cases complaints with
  | nil => rfl
  | cons c complaints => exact absurd rfl (h _ (.head _))

namespace Course

variable {span? : Passage → Option Span} {program : Program} {context : Context} {image : Image}
  {size : Nat}

namespace Flawless

variable (h : (along span? program context image).Flawless context size)

include h

/-- The values of names are the solution of the definitions. -/
theorem solution (hs : ∀ st ∈ program, st.value.Sound context.registry) :
    Solution ((Walk.start context image {}).definitions context.registry program)
      (along span? program context image).symbols.source := by
  refine Walk.solution_of_quiet hs (fun p hp => ?_) ?_
  · obtain ⟨complaints, hcomplaints⟩ := Walk.exists_complaints_of_mem_trail hp
    have hnaming := (h.walked p hp).1
    rw [hcomplaints] at hnaming ⊢
    rw [eq_nil_of_faultless hnaming, List.map_nil]
  · have hsettle := (Event.faultless_append.1 (Event.faultless_append.1 h.preparing).1).1
    rw [Walk.settleEvents, eq_nil_of_faultless hsettle, List.map_nil]

variable {p : Passage}

theorem knows_constant (hs : ∀ st ∈ program, st.value.Sound context.registry)
    (hp : p ∈ (along span? program context image).trail) {name : String} {value : Expr}
    (hvalue : p.slot.statement.value = .constant name value) :
    (along span? program context image).symbols.Knows value := by
  have hd : p.slot.definition? = some
      { name, value, here := p.slot.here, position := p.slot.statement.position } := by
    simp [TwoPass.Slot.definition?, hvalue]
  obtain ⟨v, hv, _⟩ := (h.solution hs).holds _ (List.mem_filterMap.2 ⟨p, hp, hd⟩)
  exact Symbols.knows_of_eval (.refl _) hv

/-- The step past a statement. -/
theorem exists_step (hp : p ∈ (along span? program context image).trail) :
    ∃ (cursor next : Cursor), cursor.offset = p.slot.here ∧
      cursor.step p.slot.statement.value context.registry p.symbols.source =
        .ok (p.slot.span, next) := by
  have hmoving := (h.walked p hp).2
  obtain ⟨v, statement, _, rfl, _⟩ := Walk.mem_trail context.registry hp
  obtain ⟨⟨span, next⟩, hstep⟩ := Event.exists_of_faultless hmoving
  refine ⟨(v.enter statement).cursor, next, by rw [Walk.enter_cursor]; rfl, ?_⟩
  have hspan : (v.passage context.registry statement).slot.span = span := by
    simp only [Walk.passage, Walk.move, hstep]
  rw [hspan]
  exact hstep

theorem knows_moves (hp : p ∈ (along span? program context image).trail) {e : Expr}
    (he : p.slot.statement.value.moves? = some e) :
    (along span? program context image).symbols.Knows e := by
  obtain ⟨cursor, next, _, hstep⟩ := h.exists_step hp
  obtain ⟨v, hv⟩ := Cursor.known_of_step hstep he
  exact Symbols.knows_of_eval (within_of_mem_trail hp) hv

theorem knows_protect (hp : p ∈ (along span? program context image).trail) {start : Expr}
    {stop : Option Expr} (hvalue : p.slot.statement.value = .protect start stop) :
    ∀ e ∈ start :: stop.toList, (along span? program context image).symbols.Knows e := by
  have hrequest : p.slot.protection? = some
      { position := p.slot.statement.position, here := p.slot.here, start, stop } := by
    simp [TwoPass.Slot.protection?, hvalue]
  obtain ⟨protection, _, hresolve⟩ := exists_protection program context image h.preparing p hp _ hrequest
  exact Protection.knows_of_resolve hresolve

/-- The expressions of all fields have values, those of data in free space included. -/
theorem knows_field {item : Item} (hitem : item ∈ (along span? program context image).items)
    {piece : Piece} (hp : item.piece = some piece) {f : PlacedField} (hf : f ∈ piece.fields) :
    ∀ e ∈ f.source.exprs, (along span? program context image).symbols.Knows e := by
  cases hsource : f.source with
  | expr value =>
    obtain ⟨patch, hpatch⟩ := h.resolved item hitem piece hp f hf
    simpa [FieldSource.exprs] using PlacedField.knows_of_resolve hpatch hsource
  | inline data element =>
    -- The field has a block, which got a place and was written.
    obtain ⟨hfor, hplaced⟩ := blocksFor span? program context image
    have hmem : f ∈ (along span? program context image).items.flatMap Item.fields :=
      List.mem_flatMap.2 ⟨item, hitem, by simp [Item.fields, hp, hf]⟩
    obtain ⟨b, hb, rfl, rfl, _⟩ := hfor.block hmem hsource
    obtain ⟨offset, hoffset⟩ := Option.isSome_iff_exists.1 (hplaced h.preparing b hb)
    obtain ⟨bytes, hbytes⟩ := h.filled b hb offset hoffset
    exact Arg.knows_of_inlineBytes hbytes

variable (hs : ∀ st ∈ program, st.value.Sound context.registry)

include hs

/-- The expressions whose values a statement writes have values. -/
theorem knows_written (hp : p ∈ (along span? program context image).trail) {span : Span}
    (hspan : p.slot.span = some span) :
    ∀ e ∈ p.slot.statement.value.written span.size,
      (along span? program context image).symbols.Knows e := by
  obtain ⟨item, hitem, rfl⟩ := exists_item hp
  have hfits : item.Fits context.registry := fits_of_mem_placeTrail hitem
  obtain ⟨piece, hpiece, rfl⟩ := hfits.exists_piece (h.fits item hitem) hspan
  have hsound := hs _ (Walk.statement_mem_of_mem_trail hp)
  rw [← Layout.exprs_ofStatement hsound (hfits.layout hpiece)]
  intro e he
  obtain ⟨f, hf, he⟩ := List.mem_flatMap.1 he
  rw [← hfits.fields piece hpiece] at hf
  obtain ⟨placed, hplaced, rfl⟩ := List.mem_map.1 hf
  exact h.knows_field hitem hpiece hplaced e he

/-- All names in expressions that are evaluated have values. -/
theorem knows (hp : p ∈ (along span? program context image).trail) :
    ∀ e ∈ p.evaluated, (along span? program context image).symbols.Knows e := by
  intro e he
  obtain ⟨cursor, next, hoffset, hstep⟩ := h.exists_step hp
  -- A statement that writes the value of the expression has a span, and so a piece with fields.
  have hwritten : ∀ size, e ∈ p.slot.statement.value.written size →
      (∀ span, p.slot.span = some span → e ∈ p.slot.statement.value.written span.size) →
      (along span? program context image).symbols.Knows e := by
    intro size he hspan
    obtain ⟨span, hsome⟩ := Cursor.exists_span_of_step hstep he
    exact h.knows_written hs hp hsome e (hspan span hsome)
  unfold Passage.evaluated at he
  cases hvalue : p.slot.statement.value with
  | constant name value =>
    simp only [hvalue, Statement.exprs, List.mem_singleton] at he
    exact he ▸ h.knows_constant hs hp hvalue
  | org target | align multiple =>
    simp only [hvalue, Statement.exprs, List.mem_singleton] at he
    exact h.knows_moves hp (by rw [hvalue, he]; rfl)
  | assertion condition =>
    simp only [hvalue, Statement.exprs, List.mem_singleton] at he
    obtain ⟨v, hv⟩ := h.asserted p hp condition hvalue
    exact he ▸ Symbols.knows_of_resolve hv
  | protect start stop =>
    simp only [hvalue, Statement.exprs] at he
    exact h.knows_protect hp hvalue e he
  | code index args | data width values | pointers values =>
    simp only [hvalue, Statement.exprs] at he
    exact hwritten 0 (by rw [hvalue]; exact he) (fun span _ => by rw [hvalue]; exact he)
  | fill count value =>
    rw [hvalue] at hstep
    obtain ⟨n, hn⟩ := Cursor.known_of_step hstep rfl
    have hcount := h.knows_moves hp (e := count) (by rw [hvalue]; rfl)
    rw [hoffset] at hn
    simp only [hvalue, hn] at he
    split at he
    · exact List.mem_singleton.1 he ▸ hcount
    · rename_i hne
      rcases List.mem_cons.1 he with rfl | he
      · exact hcount
      · -- The count is not zero, so the value stands in at least one byte.
        obtain rfl := List.mem_singleton.1 he
        refine hwritten 1 (by rw [hvalue]; exact List.mem_singleton_self _) fun span hspan => ?_
        rw [hspan] at hstep
        rw [hvalue]
        exact List.mem_replicate.2 ⟨Cursor.size_of_fill hstep (hoffset ▸ hn) hne, rfl⟩
  | label | push | pop | report | bytes => simp [hvalue, Statement.exprs] at he

end Flawless

end Course

end Assembly

/-! ## Undefined symbols -/

/-- A label or a constant of a program declares a name. -/
def Program.Declares (program : Program) (name : String) : Prop :=
  ∃ st ∈ program, st.value = .label name ∨ ∃ value, st.value = .constant name value

/-- A name with a value is declared. -/
theorem Assembly.Course.Flawless.declares {span? : Passage → Option Span} {context : Context}
    (h : (along span? program context image).Flawless context size)
    (hs : ∀ st ∈ program, st.value.Sound context.registry) {name : String}
    (hv : (along span? program context image).symbols.source name = some v) :
    program.Declares name := by
  obtain ⟨d, hd, rfl⟩ := List.mem_map.1
    (((h.solution hs).only name v hv).resolve_left (Option.some_ne_none v).symm)
  obtain ⟨p, hp, hdefinition⟩ := List.mem_filterMap.1 hd
  refine ⟨p.slot.statement, Walk.statement_mem_of_mem_trail hp, ?_⟩
  unfold TwoPass.Slot.definition? at hdefinition
  split at hdefinition
  · rename_i hvalue
    rw [← Option.some.inj hdefinition]
    exact .inl hvalue
  · rename_i value hvalue
    rw [← Option.some.inj hdefinition]
    exact .inr ⟨value, hvalue⟩
  · simp at hdefinition

namespace Engine

open Assembly

variable {context : Assembly.Context} {program : Program} {engine : Engine} {image : Image}

/-- All names in expressions that are evaluated are declared, if nothing fails. -/
theorem declares_of_not_failsSince (hs : ∀ st ∈ program, st.value.Sound context.registry)
    {log : Log} (h : ¬ log.FailsSince (engine.assemble program context image log).2) :
    ∀ p ∈ (Walk.start context image {}).trail context.registry program, ∀ e ∈ p.evaluated,
      ∀ name ∈ e.labels, program.Declares name := by
  have hflawless := flawless_course (faultless_of_not_failsSince h)
  intro p hp e he name hname
  -- The engines differ in the bytes that data keeps off, which has nothing to do with names.
  cases engine with
  | twoPass | onePass =>
    obtain ⟨v, hv⟩ := Course.Flawless.knows hflawless hs hp e he name hname
    exact Course.Flawless.declares hflawless hs hv

/-- What is said of an undefined symbol. -/
theorem text_of_undefined {e : Event} (he : e ∈ engine.reported program context image)
    {name : String} (hname : e.undefined? = some name) :
    ∃ first, program.firstMention? name = some first ∧ e.diagnostic.text =
      s!"undefined symbol \"{name}\"\n\tfirst used at {first.position.render}" := by
  have htraced := traced_events engine program context image
  cases e with
  | note severity position text => simp [Event.undefined?] at hname
  | fault position f =>
    cases f with
    | unresolvedSymbol other firstUse =>
      obtain rfl := Option.some.inj hname
      obtain ⟨first, hfirst, rfl⟩ := htraced position _ ((Event.lasting_sublist ..).subset he)
      exact ⟨first, hfirst, rfl⟩
    | _ => simp [Event.undefined?] at hname

/-- Undefined symbols do not slip through: if nothing fails, labels and constants declare all names in
    expressions that are evaluated; and in any case an undefined symbol is reported once, with the
    place of the first statement that mentions it. -/
theorem assemble_undefined_symbols {registry : Registry} (hr : registry.Consistent)
    {program : Program} (hp : program.Parsed registry) (context : Assembly.Context)
    (hc : context.registry = registry) (image : Image) (engine : Engine) (log : Log) :
    let result := engine.assemble program context image log
    let trail := (Walk.start context image {}).trail registry program
    let reported := engine.reported program context image
    trail.map (fun p => p.slot.statement) = program ∧
      (¬ log.FailsSince result.2 →
        ∀ p ∈ trail, ∀ e ∈ p.evaluated, ∀ name ∈ e.labels, program.Declares name) ∧
      result.2.entries = log.entries ++ reported.map Event.diagnostic ∧
      (reported.filterMap Event.undefined?).Nodup ∧
      ∀ e ∈ reported, (∀ position name, e ≠ .fault position (.eval (.unresolved name))) ∧
        ∀ name, e.undefined? = some name →
          ∃ first, program.firstMention? name = some first ∧ e.diagnostic.text =
            s!"undefined symbol \"{name}\"\n\tfirst used at {first.position.render}" := by
  intro result trail reported
  subst hc
  have hsound := hp.sound_of_consistent hr
  refine ⟨Walk.map_statement_trail .., declares_of_not_failsSince hsound,
    entries_assemble .., Event.nodup_undefined_lasting .., fun e he => ⟨?_, fun name hname => ?_⟩⟩
  · rintro position name rfl
    -- The fault of an evaluation is never that a name is missing.
    have htraced := traced_events engine program context image position _
      ((Event.lasting_sublist ..).subset he)
    exact htraced name rfl
  · exact text_of_undefined he hname

end Engine

namespace Sample

/-- A name that is declared further down, and one in a fill without bytes that is not declared. -/
def hollow : Program :=
  [⟨⟨"hollow", 1, 1⟩, .fill ⟨[.number 0]⟩ ⟨[.label "ghost"]⟩⟩,
    ⟨⟨"hollow", 2, 1⟩, .code 0 [.list [⟨[.label "data"]⟩, ⟨[.number 2]⟩]]⟩,
    ⟨⟨"hollow", 3, 1⟩, .label "data"⟩]

theorem hollow_parsed : hollow.Parsed registry := by
  have h : (Script.parse ⟨"hollow", Utf8.encode "FILL 0, ghost\nTALK([data, 2])\ndata:\n", none⟩
      { registry } []).outcome = .ok hollow := by
    decide +kernel
  exact ⟨_, _, _, rfl, h⟩

end Sample

namespace Engine

open Assembly

/-- One program does not fail, and what it evaluates is declared; the other one has an undefined
    symbol, which is reported with its first mention. -/
theorem assemble_undefined_symbols_hollow_muddle :
    Sample.registry.Consistent ∧ Sample.hollow.Parsed Sample.registry ∧
      Sample.muddle.Parsed Sample.registry ∧
      let context : Assembly.Context := { registry := Sample.registry, origin := 0x10 }
      let image : Image := Array.replicate 64 0xFF
      (¬ ({} : Log).FailsSince (onePass.assemble Sample.hollow context image {}).2 ∧
          ∀ p ∈ (Walk.start context image {}).trail Sample.registry Sample.hollow,
            ∀ e ∈ p.evaluated, ∀ name ∈ e.labels, Sample.hollow.Declares name) ∧
        (twoPass.reported Sample.muddle context image).filterMap Event.undefined? = ["lost"] ∧
        ∀ e ∈ twoPass.reported Sample.muddle context image, e.undefined? = some "lost" →
          ∃ first, Sample.muddle.firstMention? "lost" = some first ∧ e.diagnostic.text =
            s!"undefined symbol \"lost\"\n\tfirst used at {first.position.render}" := by
  have hr : Sample.registry.Consistent := Sample.loaded.wellFormed.consistent
  have hok : ¬ ({} : Log).FailsSince (onePass.assemble Sample.hollow
      { registry := Sample.registry, origin := 0x10 } (Array.replicate 64 0xFF) {}).2 := by
    decide +kernel
  have hlost : (twoPass.reported Sample.muddle { registry := Sample.registry, origin := 0x10 }
      (Array.replicate 64 0xFF)).filterMap Event.undefined? = ["lost"] := by
    decide +kernel
  have hhollow := assemble_undefined_symbols hr Sample.hollow_parsed
    { registry := Sample.registry, origin := 0x10 } rfl (Array.replicate 64 0xFF) onePass {}
  have hmuddle := assemble_undefined_symbols hr Sample.muddle_parsed
    { registry := Sample.registry, origin := 0x10 } rfl (Array.replicate 64 0xFF) twoPass {}
  exact ⟨hr, Sample.hollow_parsed, Sample.muddle_parsed, ⟨hok, hhollow.2.1 hok⟩, hlost,
    fun e he hname => (hmuddle.2.2.2.2 e he).2 "lost" hname⟩

end Engine

end CartScript
