import CartScript.Proofs.Job
import CartScript.Proofs.Listing.Entries
import CartScript.Proofs.Listing.Lines

/-!
# Listings give the image back

The script that lists what stands in an image assembles without complaint to what stands there
already.
-/

namespace CartScript

/-! ## Walking past a statement -/

namespace Assembly

/-- A statement that is passed without complaint. -/
structure Walk.Passes (registry : Registry) (w : Walk) (statement : Located Statement)
    (span : Option Span) (cursor : Cursor) : Prop where
  naming : (w.passage registry statement).naming = []
  moving : (w.passage registry statement).moving = []
  span : (w.passage registry statement).slot.span = span
  cursor : (w.pass registry statement).cursor = cursor
  waiting : (w.pass registry statement).waiting = w.waiting

variable {registry : Registry} {w : Walk} {statement : Located Statement}

theorem Walk.passes_of_step {span : Option Span} {cursor : Cursor}
    (hnaming : (w.noting statement).nameEvents statement = [])
    (hwaiting : (w.enter statement).waiting = w.waiting)
    (hstep : w.cursor.step statement.value registry (w.enter statement).symbols.source =
      .ok (span, cursor)) : w.Passes registry statement span cursor := by
  have hmove : (w.enter statement).move registry statement =
      (span, { w.enter statement with cursor }) := by
    rw [move, enter_cursor, hstep]
  refine ⟨hnaming, ?_, ?_, ?_, ?_⟩
  · simp only [passage, moveEvents, enter_cursor, hstep, Event.ofOutcome_ok]
  · simp only [passage, hmove]
  · simp only [pass, hmove]
  · simp only [pass, hmove, hwaiting]

/-- A statement that names nothing leaves the values of names alone. -/
theorem Walk.source_pass (h : w.enter statement = w.noting statement) :
    (w.pass registry statement).symbols.source = w.symbols.source := by
  rw [pass, move_symbols, h]
  exact Symbols.source_noteUses ..

end Assembly

namespace Listing

open Assembly

variable {registry : Registry} {w : Walk} {position : Position}

/-- An offset below the address of the image is taken as it is. -/
theorem passes_org {offset : UInt32} (h : offset.toNat < w.cursor.base.toNat) :
    w.Passes registry ⟨position, .org (.constant (Int64.ofNat offset.toNat))⟩ none
      { w.cursor with offset } := by
  have hoffset : toOffset (Int64.ofNat offset.toNat) w.cursor.base = .ok offset := by
    have hlt := offset.toNat_lt
    rw [toOffset, Encoding.toInt_ofNat_toNat, if_neg (by omega)]
    dsimp only
    -- The offset lies below the base, so it is not taken for an address.
    rw [Int.toNat_natCast, Encoding.unpointer?, if_neg (by omega), Option.getD_none,
      UInt32.ofNat_toNat]
  refine Walk.passes_of_step rfl rfl ?_
  show (toOffset (Int64.ofNat offset.toNat) w.cursor.base).bind _ = _
  rw [hoffset]
  rfl

/-- A label that has no value yet gets the current offset. -/
theorem passes_label {name : String} (h : w.symbols.source name = none) (registry : Registry)
    (position : Position) :
    w.Passes registry ⟨position, .label name⟩ none w.cursor ∧
      ∀ n, (w.pass registry ⟨position, .label name⟩).symbols.source n =
        if n = name then some (Int64.ofNat w.cursor.offset.toNat) else w.symbols.source n := by
  have hnoting : (w.noting ⟨position, .label name⟩).symbols.source = w.symbols.source :=
    Symbols.source_noteUses ..
  -- Noting the uses gives no name a value, so this one can still be declared.
  obtain ⟨symbols, hdeclare⟩ : ∃ symbols, (w.noting ⟨position, .label name⟩).symbols.declare name
      (Int64.ofNat w.cursor.offset.toNat) = .ok symbols := by
    refine ⟨_, if_neg ?_⟩
    rw [Dictionary.contains, ← Symbols.source_def, hnoting, h]
    simp
  have henter : w.enter ⟨position, .label name⟩ = { w with symbols } := by
    show (w.noting ⟨position, .label name⟩).declare position name
      (Int64.ofNat w.cursor.offset.toNat) = _
    rw [Walk.declare, hdeclare]
    rfl
  refine ⟨Walk.passes_of_step ?_ (by rw [henter]) rfl, fun n => ?_⟩
  · show Event.ofOutcome position (Symbols.declare _ name (Int64.ofNat w.cursor.offset.toNat)) = []
    rw [hdeclare, Event.ofOutcome_ok]
  · rw [Walk.pass, Walk.move_symbols, henter, Symbols.source_of_declare hdeclare, hnoting]

/-- A use of a code goes on after its bytes. -/
theorem passes_code {index : Nat} {code : Code} (h : registry.at? index = some code) (w : Walk)
    (position : Position) (args : List Arg) :
    w.Passes registry ⟨position, .code index args⟩ (some ⟨w.cursor.offset, code.length⟩)
      { w.cursor with offset := w.cursor.offset + UInt32.ofNat code.length } := by
  refine Walk.passes_of_step rfl rfl ?_
  simp only [Cursor.step, h, Cursor.advance]

/-! ## Walking through a listing -/

/-- The bytes that an entry writes. -/
def Entry.span? : Entry → Option Span
  | .code line => some ⟨line.offset, line.code.length⟩
  | _ => none

/-- Entries that can be walked past: their offsets are below the address of the image, and their codes
    are in the registry. -/
def Entry.Passable (registry : Registry) (base : UInt32) : Entry → Prop
  | .org offset => offset.toNat < base.toNat
  | .code line => registry.at? line.code.index = some line.code
  | _ => True

/-- A walk past the statements of entries: nothing is reported, and each named offset gets its
    label. -/
structure Walked (registry : Registry) (base : UInt32) (w : Walk) (entries : List Entry)
    (program : Program) : Prop where
  waiting : (w.passAll registry program).waiting = w.waiting
  labels : ∀ offset ∈ entries.flatMap Entry.named,
    (w.passAll registry program).symbols.source (label offset) = some (Int64.ofNat offset.toNat)
  trail : ∀ p ∈ w.trail registry program, p.naming = [] ∧ p.moving = [] ∧
    ∃ e ∈ entries, p.slot.statement.value ∈ e.statements base ∧ p.slot.span = e.span?

variable {context : Assembly.Context} {program : Program} {final : Symbols} {base : UInt32}
  {p : Passage}

theorem Walked.cons {entry : Entry} {entries : List Entry} {statement : Located Statement}
    {cursor : Cursor} (hvalue : statement.value ∈ entry.statements base)
    (hpasses : w.Passes registry statement entry.span? cursor)
    (hnamed : ∀ offset ∈ entry.named, (w.pass registry statement).symbols.source (label offset) =
      some (Int64.ofNat offset.toNat))
    (h : Walked registry base (w.pass registry statement) entries program) :
    Walked registry base w (entry :: entries) (statement :: program) where
  waiting := h.waiting.trans hpasses.waiting
  labels := by
    rw [List.flatMap_cons]
    refine List.forall_mem_append.2 ⟨fun offset ho => ?_, h.labels⟩
    -- What a name stands for here it stands for to the end of the walk.
    exact Walk.passAll_within registry program _ _ _ (hnamed offset ho)
  trail := by
    refine List.forall_mem_cons.2 ⟨⟨hpasses.naming, hpasses.moving, entry, .head _,
      hvalue, hpasses.span⟩, fun p hp => ?_⟩
    obtain ⟨hnaming, hmoving, e, he, hstatement⟩ := h.trail p hp
    exact ⟨hnaming, hmoving, e, .tail _ he, hstatement⟩

/-- Labels of different offsets differ. -/
theorem label_injective {a b : UInt32} (h : label a = label b) : a = b := by
  have hlt : ∀ offset : UInt32, offset.toNat < 2 ^ 63 := fun offset =>
    Nat.lt_trans offset.toNat_lt (by decide)
  have hdigits : hexPadded 6 a.toNat = hexPadded 6 b.toNat := by
    simpa [label] using h
  exact UInt32.toNat_inj.1 (hexPadded_injective (hlt a) (hlt b) hdigits)

/-- A listing can be walked through from anywhere. -/
theorem walk_entries {entries : List Entry}
    (hprogram : program.map Located.value = entries.flatMap (Entry.statements base))
    (hplaced : Placed w.cursor.offset entries) (hpassable : ∀ e ∈ entries, e.Passable registry base)
    (hbase : w.cursor.base = base) (hnodup : (entries.flatMap Entry.named).Nodup)
    (hfresh : ∀ offset ∈ entries.flatMap Entry.named, w.symbols.source (label offset) = none) :
    Walked registry base w entries program := by
  -- Entry by entry: the walk stands where the entry was listed, and the labels that are still to
  -- come have no value.
  induction entries generalizing w program with
  | nil =>
    obtain rfl := List.map_eq_nil_iff.1 hprogram
    exact ⟨rfl, by simp, by simp [Walk.trail]⟩
  | cons entry entries ih =>
    obtain ⟨hentry, hentries⟩ := List.forall_mem_cons.1 hpassable
    rw [List.flatMap_cons] at hprogram hnodup hfresh
    cases entry with
    | blank =>
      have h := ih hprogram hplaced hentries hbase hnodup hfresh
      refine ⟨h.waiting, h.labels, fun p hp => ?_⟩
      obtain ⟨hnaming, hmoving, e, he, hstatement⟩ := h.trail p hp
      exact ⟨hnaming, hmoving, e, .tail _ he, hstatement⟩
    | org offset =>
      obtain ⟨⟨position, value⟩, rest, rfl, rfl, hrest⟩ := List.map_eq_cons_iff.1 hprogram
      have hpasses : w.Passes registry ⟨position, _⟩ none { w.cursor with offset } :=
        passes_org (hbase ▸ hentry)
      refine Walked.cons (List.mem_singleton_self _) hpasses (by simp [Entry.named]) (ih hrest ?_
        hentries (by rw [hpasses.cursor, hbase]) hnodup ?_)
      · rw [hpasses.cursor]
        exact hplaced
      · rw [Walk.source_pass rfl]
        exact hfresh
    | label offset =>
      obtain ⟨⟨position, value⟩, rest, rfl, rfl, hrest⟩ := List.map_eq_cons_iff.1 hprogram
      obtain ⟨rfl, hplaced⟩ := hplaced
      obtain ⟨hnew, hnodup⟩ := List.nodup_cons.1 hnodup
      obtain ⟨hunknown, hfresh⟩ := List.forall_mem_cons.1 hfresh
      obtain ⟨hpasses, hsource⟩ := passes_label hunknown registry position
      refine Walked.cons (List.mem_singleton_self _) hpasses (fun offset ho => ?_) (ih hrest ?_
        hentries (by rw [hpasses.cursor, hbase]) hnodup fun offset ho => ?_)
      · rw [List.mem_singleton.1 ho, hsource, if_pos rfl]
      · rw [hpasses.cursor]
        exact hplaced
      · -- No other offset has this label.
        have hother : label offset ≠ label w.cursor.offset := fun heq =>
          hnew ((label_injective heq).symm ▸ ho)
        rw [hsource, if_neg hother]
        exact hfresh offset ho
    | code line =>
      obtain ⟨⟨position, value⟩, rest, rfl, rfl, hrest⟩ := List.map_eq_cons_iff.1 hprogram
      obtain ⟨hcursor, hplaced⟩ := hplaced
      have hpasses := passes_code hentry w position
        (line.operands.map (Operand.arg base))
      -- A code stands where the code before it ended, which is where the walk is.
      rw [hcursor] at hpasses
      refine Walked.cons (List.mem_singleton_self _) hpasses (by simp [Entry.named]) (ih hrest ?_
        hentries (by rw [hpasses.cursor, hbase]) hnodup ?_)
      · rw [hpasses.cursor]
        exact hplaced
      · rw [Walk.source_pass rfl]
        exact hfresh

/-! ## The statements of a listing -/

/-- Codes that are found again by their names, and whose numbers can be written out. -/
structure Listable (registry : Registry) (game : String) (code : Code) : Prop where
  wellFormed : code.WellFormed
  at? : registry.at? code.index = some code
  get? : registry.get? code.name game = some code
  name : Keyword.ofName? code.name = none
  width : ∀ p ∈ code.params, p.numberWidth ≤ 7

variable {t : Target} {labels : List UInt32} {blocks : List Block} {game : String}

/-- A statement that only names or moves changes nothing. -/
theorem still_of_unwritten {image : Image} (hnaming : p.naming = []) (hmoving : p.moving = [])
    (hspan : p.slot.span = none) (hkind : (∃ target, p.slot.statement.value = .org target) ∨
      ∃ name, p.slot.statement.value = .label name) : p.Still context final image := by
  refine ⟨hnaming, hmoving, ?_, ?_, by simp [hspan], by simp [Passage.writes?, hspan]⟩
  all_goals
    rcases hkind with ⟨target, hkind⟩ | ⟨name, hkind⟩ <;>
      simp only [TwoPass.Slot.protection?, Passage.spoken, hkind]

/-- A decoded code changes nothing when it is assembled again. -/
theorem still_code {line : Line} (hbase : context.pointerBase = t.pointerBase)
    (hlimit : Encoding.pointerLimit ≤ t.pointerBase.toNat)
    (hcode : Listable context.registry game line.code) (hshows : line.Shows t labels)
    (hhigh : line.HighPointers t.image)
    (hlabels : ∀ offset ∈ labels, final.source (label offset) = some (Int64.ofNat offset.toNat))
    (hnaming : p.naming = []) (hmoving : p.moving = []) (hvalue : p.slot.statement.value =
      .code line.code.index (line.operands.map (Operand.arg t.pointerBase)))
    (hspan : p.slot.span = some ⟨line.offset, line.code.length⟩) :
    p.Still context final t.image where
  naming := hnaming
  moving := hmoving
  protection := by simp only [TwoPass.Slot.protection?, hvalue]
  spoken := by simp only [Passage.spoken, hvalue]
  alignment span hspan' := by
    obtain ⟨group, haccepts⟩ := hshows.accepts
    have haligned := (Target.of_accepts haccepts).1
    rw [hspan, Option.some.injEq] at hspan'
    subst hspan'
    -- The code was decoded here, so it is aligned and there is nothing to warn of.
    have hguard : ¬(1 < line.code.align.toNat ∧ line.offset.toNat % line.code.align.toNat ≠ 0) := by
      rintro ⟨hlt, hne⟩
      rw [Nat.max_eq_left (Nat.le_of_lt hlt)] at haligned
      exact hne haligned
    simp only [Passage.alignment, alignmentWarning?, hvalue, hcode.at?, guard,
      Option.bind_eq_bind, Option.bind_some, if_neg hguard]
    rfl
  written span layout hwrites := by
    obtain ⟨l, hl, hlshows⟩ := hshows.layout hcode.wellFormed hcode.width hlimit hhigh hlabels
      hcode.at? line.code.length
    simp only [Passage.writes?, hspan, Option.bind_some, hvalue, hl, Except.toOption,
      Option.map_some, Option.some.injEq, Prod.mk.injEq] at hwrites
    obtain ⟨rfl, rfl⟩ := hwrites
    exact ⟨line.bytes t.image, hshows.read?.1, hbase ▸ hlshows⟩

/-- The statements of a listing change nothing. -/
theorem still_entries (hbase : context.pointerBase = t.pointerBase)
    (hlimit : Encoding.pointerLimit ≤ t.pointerBase.toNat)
    (hsize : t.image.size ≤ Encoding.pointerLimit)
    (hcodes : ∀ code ∈ t.codes, Listable context.registry game code)
    (hfound : Found t labels blocks)
    (hhigh : ∀ b ∈ blocks, ∀ line ∈ b.lines, line.HighPointers t.image)
    (hprogram : program.map Located.value =
      (entries labels blocks).flatMap (Entry.statements t.pointerBase)) :
    Assembly.Still context t.image program := by
  have hpassable : ∀ e ∈ entries labels blocks, e.Passable context.registry t.pointerBase := by
    intro e he
    rcases mem_entries he with rfl | ⟨b, hb, he⟩
    · trivial
    · rcases mem_block_entries he with rfl | ⟨offset, rfl⟩ | ⟨line, hline, rfl⟩
      · have := hfound.inside b.start (List.mem_flatMap.2 ⟨b, hb, .head _⟩)
        show b.start.toNat < t.pointerBase.toNat
        omega
      · trivial
      · exact (hcodes _ (hfound.lines b hb line hline).code).at?
  -- The walk starts without any names, so all labels are free.
  have hwalked : Walked context.registry t.pointerBase (Walk.start context t.image {})
      (entries labels blocks) program :=
    walk_entries hprogram (placed_entries labels hfound.chains _) hpassable hbase
      hfound.nodup_entries fun _ _ => rfl
  refine ⟨hwalked.waiting, fun p hp => ?_⟩
  obtain ⟨hnaming, hmoving, e, he, hvalue, hspan⟩ := hwalked.trail p hp
  rcases mem_entries he with rfl | ⟨b, hb, he⟩
  · simp [Entry.statements] at hvalue
  · rcases mem_block_entries he with rfl | ⟨offset, rfl⟩ | ⟨line, hline, rfl⟩
    · exact still_of_unwritten hnaming hmoving hspan (.inl ⟨_, List.mem_singleton.1 hvalue⟩)
    · exact still_of_unwritten hnaming hmoving hspan (.inr ⟨_, List.mem_singleton.1 hvalue⟩)
    · have hshows := hfound.lines b hb line hline
      exact still_code hbase hlimit (hcodes _ hshows.code) hshows (hhigh b hb line hline)
        (fun offset ho => hwalked.labels offset (hfound.mem_named ho)) hnaming hmoving
        (List.mem_singleton.1 hvalue) hspan

/-- The text of a listing is read without complaint, as statements that change nothing. -/
theorem parse_found {env : Environment} (hregistry : env.registry = context.registry)
    (hbase : context.pointerBase = t.pointerBase)
    (hlimit : Encoding.pointerLimit ≤ t.pointerBase.toNat)
    (hsize : t.image.size ≤ Encoding.pointerLimit) (henv : env.limit = 2 ^ 32)
    (hcodes : ∀ code ∈ t.codes, Listable context.registry env.game code)
    (hfound : Found t labels blocks)
    (hhigh : ∀ b ∈ blocks, ∀ line ∈ b.lines, line.HighPointers t.image) (name : String) :
    ∃ program : Program,
      ({ name, content := Utf8.encode (render t.pointerBase labels blocks) } : Script).parse env [] =
        ⟨.ok program, []⟩ ∧ Assembly.Still context t.image program := by
  have hlength : (entries labels blocks).length ≤ 5 * t.image.size :=
    Nat.le_trans (length_entries_le labels hfound.chains)
      (Nat.mul_le_mul_left _ hfound.length_le)
  unfold Encoding.pointerLimit at hsize
  have hentry : ∀ e ∈ entries labels blocks, e.Writable ∧ e.Readable env t.pointerBase := by
    intro e he
    rcases mem_entries he with rfl | ⟨b, hb, he⟩
    · exact ⟨trivial, trivial⟩
    · rcases mem_block_entries he with rfl | ⟨offset, rfl⟩ | ⟨line, hline, rfl⟩
      · exact ⟨trivial, trivial⟩
      · exact ⟨trivial, trivial⟩
      · have hshows := hfound.lines b hb line hline
        have hcode := hcodes _ hshows.code
        exact ⟨hshows.writable hcode.wellFormed hcode.width,
          hshows.readable hcode.wellFormed hcode.name (hregistry ▸ hcode.get?) (by omega)⟩
  -- Five entries for every byte at most: fewer than the limit of the loops that read a script.
  obtain ⟨program, hprogram, hparse⟩ := parse_render (fun e he => (hentry e he).1)
    (fun e he => (hentry e he).2) (by omega) name
  exact ⟨program, hparse, still_entries hbase hlimit hsize hcodes hfound hhigh hprogram⟩

/-- The codes that a listing shows. -/
def decodedLines (target : Target) (request : Request) (log : Log) : List Line :=
  let context : Context :=
    { toTarget := target, mode := request.mode, sizeLimit := request.sizeLimit }
  (context.run ⟨request.start target.pointerBase, request.group⟩ log).blocks.toList.flatMap
    Block.lines

/-- A listing is the text of what was found. -/
theorem disassemble_found {target : Target} (hcodes : ∀ code ∈ target.codes, code.WellFormed)
    (request : Request) (log : Log) :
    ∃ labels blocks, Found target labels blocks ∧
      (∀ b ∈ blocks, ∀ line ∈ b.lines, line ∈ decodedLines target request log) ∧
      (disassemble target request log).1 = render target.pointerBase labels blocks := by
  unfold disassemble
  dsimp only
  split
  · -- Outside of the image there is nothing to list, and the text is empty.
    exact ⟨[], [], .nil target, by simp, rfl⟩
  · rename_i hin
    let context : Context :=
      { toTarget := target, mode := request.mode, sizeLimit := request.sizeLimit }
    have hstart : (request.start target.pointerBase).toNat < context.image.size := Nat.not_le.1 hin
    -- The queue is empty at the end, so every offset that was followed has its block.
    obtain ⟨hdecoded, hqueue⟩ := Context.run_spec (c := context) hcodes
      ⟨request.start target.pointerBase, request.group⟩ hstart log
    exact ⟨_, _, hdecoded.found hqueue,
      fun b hb line hline => List.mem_flatMap.2 ⟨b, hb, hline⟩, rfl⟩

end Listing

theorem Registry.exists_at?_of_mem_forGame {r : Registry} {game : String} {code : Code}
    (h : code ∈ r.forGame game) : ∃ i, r.at? i = some code := by
  have hmem := (List.mem_filter.1 h).1
  rw [Array.mem_toList_iff] at hmem
  obtain ⟨i, hi, hcode⟩ := Array.mem_iff_getElem.1 hmem
  exact ⟨i, Array.getElem?_eq_some_iff.2 ⟨hi, hcode⟩⟩

/-- The codes of a game can be listed, if no name is that of a directive and no number is too long. -/
theorem Registry.WellFormed.listable {r : Registry} (hr : r.WellFormed)
    (hnames : ∀ code ∈ r.codes, code.name ∉ Keyword.names)
    (hwidths : ∀ code ∈ r.codes, ∀ p ∈ code.params, p.numberWidth ≤ 7) {game : String} {code : Code}
    (h : code ∈ r.forGame game) : Listing.Listable r game code := by
  obtain ⟨hmem, hgame⟩ := List.mem_filter.1 h
  rw [Array.mem_toList_iff] at hmem
  obtain ⟨i, hat⟩ := exists_at?_of_mem_forGame h
  obtain ⟨hwell, rfl⟩ := hr.codes i code hat
  exact ⟨hwell, hat, hr.get?_eq hat hgame, Keyword.ofName?_eq_none (hnames code hmem),
    hwidths code hmem⟩

namespace Sample

/-- Codes with an address that is followed, one that is only printed, a text and numbers. -/
def units : Registry :=
  { codes := #[
      { name := "CALL", id := 0x11, idLength := 2, length := 12, index := 0, origin := "units:1"
        params := [{ name := "unit", offset := 4, length := 4, kind := .struct "unit" 1 },
          { name := "data", offset := 8, length := 4, kind := .pointer 1 }] },
      { name := "END", id := 0x22, idLength := 2, length := 4, terminates := true, index := 1
        origin := "units:4" },
      { name := "UNIT", id := 0x33, idLength := 2, length := 12, group := "unit", terminates := true
        params := [{ name := "name", offset := 4, length := 4, kind := .text },
          { name := "at", offset := 8, length := 4, kind := .array 2 true false }]
        index := 2, origin := "units:5" }]
    names := ⟨[("CALL", [0]), ("END", [1]), ("UNIT", [2])]⟩ }

theorem units_loaded : units.Loaded := by
  have h : Registry.loadText {} "units" ("CALL, 0x11, 12\n  unit, 4, 4, -struct:unit\n" ++
      "  data, 8, 4, -pointer\nEND, 0x22, 4, -end\nUNIT, 0x33, 12, -group:unit, -end\n" ++
      "  name, 4, 4, -string\n  at, 8, 4, -coordinates:2, -signed\n") = .ok units := by
    decide +kernel
  exact .text h

/-- An image with a header and three codes. -/
def cartridge : Image :=
  Array.replicate 0xAC 0 ++ #[0x42, 0x45, 0x38, 0x45,
    0x11, 0, 0, 0, 0xC0, 0, 0, 0x08, 0, 0, 0, 0x09, 0x22, 0, 0, 0,
    0x33, 0, 0, 0, 0x48, 0x69, 0, 0, 0xFE, 0xFF, 5, 0]

end Sample

namespace Job

/-- What is listed of an image of a game. -/
def Context.target (c : Context) (game : Game) (image : Image) : Listing.Target :=
  { image, codes := c.registry.forGame game.name, pointerBase := c.settings.pointerBase }

/-- Assembling the listing of an image has no effect: it succeeds, with nothing in the log, and the
    image stays as it is. -/
theorem assemble_disassemble {c : Context} (hregistry : c.registry.Loaded)
    (hnames : ∀ code ∈ c.registry.codes, code.name ∉ Keyword.names)
    (hwidths : ∀ code ∈ c.registry.codes, ∀ p ∈ code.params, p.numberWidth ≤ 7)
    (hbase : 0x2000000 ≤ c.settings.pointerBase.toNat) {image : Image}
    (hsize : image.size ≤ 0x2000000) {game : Game}
    (hgame : Game.identify image c.settings.gameTable = .ok game) (request : Listing.Request)
    (hpointers : ∀ line ∈ Listing.decodedLines (c.target game image) request c.log,
      line.HighPointers image) (engine : Option Engine) (name : String) :
    let content := Utf8.encode (disassemble c request image).1
    let result := assemble c { engine } (.text name content) image
    result.1 = image ∧ result.2.entries = [] ∧ result.2.succeeded = true := by
  intro content result
  have hr := hregistry.wellFormed
  have hcodes : ∀ code ∈ (c.target game image).codes,
      Listing.Listable c.registry game.name code := fun code hcode =>
    hr.listable hnames hwidths hcode
  obtain ⟨labels, blocks, hfound, hlines, htext⟩ :=
    Listing.disassemble_found (fun code hcode => (hcodes code hcode).wellFormed) request c.log
  have hcontent : content =
      Utf8.encode (Listing.render (c.target game image).pointerBase labels blocks) := by
    rw [← htext]
    simp only [content, disassemble, hgame]
    rfl
  obtain ⟨program, hparse, hstill⟩ : ∃ program : Program,
      ({ name, content } : Script).parse (c.environment { engine } game) [] = ⟨.ok program, []⟩ ∧
        Assembly.Still (c.assembly { engine }) image program := by
    rw [hcontent]
    exact Listing.parse_found (t := c.target game image) rfl rfl hbase hsize rfl hcodes hfound
      (fun b hb line hline => hpointers line (hlines b hb line hline)) name
  have hsound : ∀ st ∈ program, st.value.Sound c.registry := by
    have hparsed : program.Parsed c.registry :=
      ⟨{ name, content }, c.environment { engine } game, [], rfl, by rw [hparse]⟩
    exact hparsed.sound hr
  have hresult : result = (image, c.log) := by
    have hassemble : (c.engine { engine }).assemble program (c.assembly { engine }) image c.log =
        (image, c.log) := Engine.assemble_of_still hr hsound hstill _ _
    simp only [result, assemble, hgame, Source.load, assembleScript, hparse]
    exact hassemble
  rw [hresult]
  exact ⟨rfl, rfl, rfl⟩

/-- A listing with an address that is followed, one that is only printed, a text and numbers. -/
theorem assemble_disassemble_units :
    let c : Context := { registry := Sample.units }
    let request : Listing.Request := { offset := 0xB0 }
    let content := Utf8.encode (disassemble c request Sample.cartridge).1
    let result := assemble c { engine := some .onePass } (.text "units" content) Sample.cartridge
    c.registry.Loaded ∧
      (disassemble c request Sample.cartridge).1 =
        "ORG 0xB0\nlabel_0000B0:\nCALL(label_0000C0, 0x1000000)\nEND\n\n" ++
          "ORG 0xC0\nlabel_0000C0:\nUNIT(\"Hi\", [-2, 5])\n" ∧
      result.1 = Sample.cartridge ∧ result.2.entries = [] ∧ result.2.succeeded = true := by
  intro c request content result
  have hgame : Game.identify Sample.cartridge c.settings.gameTable = .ok ⟨"BE8E", "FE8"⟩ := by
    decide +kernel
  refine ⟨Sample.units_loaded, by decide +kernel, ?_⟩
  exact assemble_disassemble (c := c) Sample.units_loaded (by decide +kernel) (by decide +kernel)
    (by decide) (by decide +kernel) hgame request (by decide +kernel) _ _

end Job

end CartScript
