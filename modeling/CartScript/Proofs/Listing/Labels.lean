import CartScript.Proofs.Listing.Extents
import CartScript.Proofs.Listing.RoundTrip
import Mathlib.Data.List.Nodup

/-!
# Labels of a listing

A listing is a text of lines.  Each line that defines a label stands at the offset that the label
names, no label is defined twice, and a label that a code refers to is defined.
-/

namespace CartScript.Listing

/-! ## Characters -/

/-- The characters of numbers and addresses. -/
def figures : List Char := "0123456789ABCDEFx-".toList

theorem hex_subset_figures (n : Nat) : (hex n).toList ⊆ figures := by
  rw [hex, String.toList_ofList]
  exact Digits.forall_mem_write (by decide)

theorem repr_subset_figures (n : Nat) : n.repr.toList ⊆ figures := by
  rw [Nat.repr_eq_ofList_toDigits, String.toList_ofList]
  exact Digits.forall_mem_toDigits (by decide) (by decide)

variable {s t : String} {labels : List UInt32} {operand : Operand} {base offset : UInt32}
  {line : Line} {e : Entry}

theorem append_subset_figures (hs : s.toList ⊆ figures) (ht : t.toList ⊆ figures) :
    (s ++ t).toList ⊆ figures := by
  rw [String.toList_append]
  exact List.append_subset.2 ⟨hs, ht⟩

theorem number_subset_figures (value : Int64) (hex : Bool) : (number value hex).toList ⊆ figures := by
  cases hex with
  | true =>
    simp only [number, Bool.not_true, Bool.false_eq_true, if_false]
    split
    · exact append_subset_figures (by decide) (hex_subset_figures _)
    · exact append_subset_figures (by decide) (hex_subset_figures _)
  | false =>
    simp only [number, Bool.not_false, if_true, Int.toString_eq_repr, Int.repr_eq_if]
    split
    · exact repr_subset_figures _
    · exact append_subset_figures (by decide) (repr_subset_figures _)

theorem address_subset_figures (raw : Nat) (base : UInt32) : (address raw base).toList ⊆ figures := by
  have hraw : (if raw = 0 then "0" else "0x" ++ hex raw).toList ⊆ figures := by
    split
    · decide
    · exact append_subset_figures (by decide) (hex_subset_figures raw)
  unfold address
  split
  · split
    · exact append_subset_figures (by decide) (hex_subset_figures _)
    · exact hraw
  · exact hraw

/-- The characters of a name. -/
theorem isName_chars {cs : List Char} (h : Text.isName cs = true) :
    ∀ c ∈ cs, (c.isAlphanum || c == '_') = true := by
  cases cs with
  | nil => simp
  | cons c cs =>
    simp only [Text.isName, Bool.and_eq_true, List.all_eq_true] at h
    refine List.forall_mem_cons.2 ⟨?_, h.2⟩
    rcases Bool.or_eq_true_iff.1 h.1 with halpha | hscore
    · simp [Char.isAlphanum, halpha]
    · simp [hscore]

/-! ## Lines -/

/-- A text without a line feed. -/
def OneLine (s : String) : Prop := '\n' ∉ s.toList

instance (s : String) : Decidable (OneLine s) := inferInstanceAs (Decidable (¬ _))

theorem OneLine.append (hs : OneLine s) (ht : OneLine t) : OneLine (s ++ t) := by
  rw [OneLine, String.toList_append, List.mem_append]
  exact not_or.2 ⟨hs, ht⟩

theorem OneLine.commas {texts : List String} (h : ∀ s ∈ texts, OneLine s) :
    OneLine (", ".intercalate texts) := by
  induction texts with
  | nil => simp [OneLine]
  | cons s texts ih =>
    obtain ⟨hs, htexts⟩ := List.forall_mem_cons.1 h
    cases texts with
    | nil => rwa [String.intercalate_singleton]
    | cons t texts =>
      rw [String.intercalate_cons_cons]
      exact (hs.append (by decide)).append (ih htexts)

theorem oneLine_of_figures (h : s.toList ⊆ figures) : OneLine s := fun hmem =>
  absurd (h hmem) (by decide)

theorem oneLine_of_isName (h : Text.isName s.toList = true) : OneLine s := fun hmem =>
  absurd (isName_chars h _ hmem) (by decide)

theorem oneLine_quote (h : Lexer.Printable s.toList) : OneLine (quote s) := by
  have hescape : ∀ cs : List Char, Lexer.Printable cs → '\n' ∉ escape cs := by
    intro cs hcs
    induction cs with
    | nil => simp [escape]
    | cons c cs ih =>
      obtain ⟨hc, hcs⟩ := List.forall_mem_cons.1 hcs
      have hne : '\n' ≠ c := by
        rintro rfl
        exact absurd hc (by decide)
      rw [escape]
      split
      · simp [hne, ih hcs]
      · simp [hne, ih hcs]
  refine (OneLine.append (by decide) ?_).append (by decide)
  rw [OneLine, String.toList_ofList]
  exact hescape _ h

theorem oneLine_list (values : List Int64) (hex : Bool) :
    OneLine (list (values.map (number · hex))) := by
  refine (OneLine.append (by decide) (OneLine.commas fun s hs => ?_)).append (by decide)
  obtain ⟨value, _, rfl⟩ := List.mem_map.1 hs
  exact oneLine_of_figures (number_subset_figures value hex)

theorem Operand.Shows.oneLine {param : Param} {slice : List UInt8}
    (h : operand.Shows base labels param slice) : OneLine (operand.render base) := by
  cases h with
  | number hkind => exact oneLine_of_figures (number_subset_figures _ _)
  | address hkind => exact oneLine_of_figures (address_subset_figures _ base)
  | label hkind hoffset hne hlabel => exact oneLine_of_isName (isName_label _)
  | text hkind hcontent => exact oneLine_quote (Encoding.text_of_readText? hcontent).1
  | bytes hkind hvalues | array hkind hcount hvalues => exact oneLine_list _ _

theorem Line.Shows.oneLine {t : Target} (h : line.Shows t labels) (hcode : line.code.WellFormed) :
    OneLine (line.render t.pointerBase) := by
  have hname := oneLine_of_isName hcode.name
  unfold Line.render
  split
  · exact hname
  · refine ((hname.append (by decide)).append (OneLine.commas fun s hs => ?_)).append (by decide)
    obtain ⟨operand, hoperand, rfl⟩ := List.mem_map.1 hs
    obtain ⟨p, _, hshows⟩ := h.exists_param hoperand
    exact hshows.oneLine

/-! ## Definitions of labels -/

/-- An operand that looks like a label is one. -/
theorem Operand.render_eq_label (h : operand.render base = Listing.label offset) :
    operand = .label offset := by
  -- A label begins with a letter that no number has, and not with a quote or a bracket.
  have hl : 'l' ∈ (operand.render base).toList := by simp [h, Listing.label]
  cases operand with
  | number value hex => exact absurd (number_subset_figures value hex hl) (by decide)
  | address raw => exact absurd (address_subset_figures raw base hl) (by decide)
  | label other => rw [label_injective h]
  | text content =>
    have hhead := congrArg (·.toList.head?) h
    simp [render, quote, Listing.label] at hhead
  | list values hex =>
    have hhead := congrArg (·.toList.head?) h
    simp [render, Listing.list, Listing.label] at hhead

/-- The line that defines a label is the entry of the label. -/
theorem Entry.text_eq_label_iff
    (h : ∀ line, e = .code line → Text.isName line.code.name.toList = true) (base offset : UInt32) :
    e.text base = Listing.label offset ++ ":" ↔ e = .label offset := by
  constructor
  · intro htext
    cases e with
    | blank | org other =>
      have hhead := congrArg (·.toList.head?) htext
      simp [text, Listing.label] at hhead
    | label other =>
      rw [label_injective ((String.append_left_inj _).1 htext)]
    | code line =>
      -- A code without operands is a name, which has no colon, and others end in a bracket.
      have hname := h line rfl
      exfalso
      simp only [text, Line.render] at htext
      split at htext
      · have hcolon : ':' ∈ line.code.name.toList := by simp [htext]
        exact absurd (isName_chars hname _ hcolon) (by decide)
      · have hlast := congrArg (·.toList.getLast?) htext
        simp only [String.toList_append, List.getLast?_append] at hlast
        exact absurd (show some ')' = some ':' from hlast) (by decide)
  · rintro rfl
    rfl

/-- The code that an entry shows. -/
def Entry.line? : Entry → Option Line
  | .code line => some line
  | _ => none

/-- The entries of a listing show the codes of its blocks. -/
theorem filterMap_line?_entries (labels : List UInt32) (blocks : List Block) :
    (entries labels blocks).filterMap Entry.line? = blocks.flatMap Block.lines := by
  -- In front of a code there may be a label, which shows no code.
  have hlines : ∀ (start : UInt32) (lines : List Line),
      (lines.flatMap (Line.entries labels start)).filterMap Entry.line? = lines := by
    intro start lines
    induction lines with
    | nil => rfl
    | cons line lines ih =>
      rw [List.flatMap_cons, List.filterMap_append, ih, Line.entries]
      split <;> rfl
  have hblocks : (blocks.flatMap fun b => Entry.blank :: b.entries labels).filterMap Entry.line? =
      blocks.flatMap Block.lines := by
    rw [List.filterMap_flatMap]
    refine List.flatMap_congr fun b _ => ?_
    exact hlines b.start b.lines
  rw [entries_eq_tail, ← hblocks]
  cases blocks <;> rfl

theorem Entry.mem_named : offset ∈ e.named ↔ e = .label offset := by
  cases e <;> simp [named, eq_comm]

/-- How often a label is defined in the lines of entries. -/
theorem count_label {entries : List Entry}
    (h : ∀ line, .code line ∈ entries → Text.isName line.code.name.toList = true)
    (base offset : UInt32) :
    (entries.map (Entry.text base)).count (label offset ++ ":") =
      (entries.flatMap Entry.named).count offset := by
  induction entries with
  | nil => rfl
  | cons e entries ih =>
    have htext := Entry.text_eq_label_iff
      (fun line hline => h line (hline ▸ .head _)) base offset
    have ih := ih fun line hline => h line (.tail _ hline)
    rw [List.map_cons, List.count_cons, ih, List.flatMap_cons, List.count_append, Nat.add_comm]
    congr 1
    by_cases he : e = .label offset
    · simp [he, Entry.named, Entry.text]
    · rw [List.count_eq_zero.2 (mt Entry.mem_named.1 he), if_neg]
      simpa using mt htext.1 he

/-! ## What was found -/

section Found

variable {t : Target} {labels : List UInt32} {blocks : List Block} (h : Found t labels blocks)

include h

theorem Found.shows_of_mem {line : Line} (hline : line ∈ blocks.flatMap Block.lines) :
    line.Shows t labels := by
  obtain ⟨b, hb, hline⟩ := List.mem_flatMap.1 hline
  exact h.lines b hb line hline

theorem Found.shows_of_mem_entries {line : Line} (hline : .code line ∈ entries labels blocks) :
    line.Shows t labels := by
  apply h.shows_of_mem
  rw [← filterMap_line?_entries labels blocks]
  exact List.mem_filterMap.2 ⟨_, hline, rfl⟩

/-- The starts of the blocks are some of the offsets that have been found. -/
theorem Found.nodup_starts : (blocks.map Block.start).Nodup := by
  refine h.nodup.sublist ?_
  rw [List.map_eq_flatMap]
  exact List.Sublist.flatMap_right _ fun b _ => (List.nil_sublist _).cons_cons _

/-- The text of an entry is one line. -/
theorem Found.oneLine (hcodes : ∀ code ∈ t.codes, code.WellFormed) {e : Entry}
    (he : e ∈ entries labels blocks) : OneLine (e.text t.pointerBase) := by
  cases e with
  | blank => simp [OneLine, Entry.text]
  | org offset => exact OneLine.append (by decide) (oneLine_of_figures (hex_subset_figures _))
  | label offset => exact (oneLine_of_isName (isName_label offset)).append (by decide)
  | code line =>
    have hshows := h.shows_of_mem_entries he
    exact hshows.oneLine (hcodes _ hshows.code)

/-- A label that a code refers to was found. -/
theorem Found.mem_labels {line : Line} (hline : line ∈ blocks.flatMap Block.lines) {offset : UInt32}
    (hoperand : .label offset ∈ line.operands) : offset ∈ labels := by
  obtain ⟨p, _, hshows⟩ := (h.shows_of_mem hline).exists_param hoperand
  -- Only one of the ways to show an operand makes a label.
  cases hshows with
  | label hkind hoffset hne hlabel => exact hlabel

end Found

/-! ## Listings -/

/-- The bytes of a decoded code. -/
def Line.interval (line : Line) : Interval :=
  ⟨line.offset.toNat, line.offset.toNat + line.code.length⟩

/-- Codes each of which starts where the one before it ends, from an offset on. -/
def Contiguous : Nat → List Line → Prop
  | _, [] => True
  | offset, line :: lines =>
    line.offset.toNat = offset ∧ Contiguous (offset + line.code.length) lines

/-- The blocks that a listing shows. -/
def decodedBlocks (target : Target) (request : Request) (log : Log) : List Block :=
  let start := request.start target.pointerBase
  let context : Context :=
    { toTarget := target, mode := request.mode, sizeLimit := request.sizeLimit }
  if target.image.size ≤ start.toNat then []
  else (context.run ⟨start, request.group⟩ log).blocks.toList

/-- The codes of a game are well formed. -/
theorem wellFormed_of_mem_forGame {registry : Registry} (hr : registry.WellFormed) {game : String}
    {code : Code} (h : code ∈ registry.forGame game) : code.WellFormed := by
  obtain ⟨i, hat⟩ := Registry.exists_at?_of_mem_forGame h
  exact (hr.codes i code hat).1

/-- A decoded code ends in the image. -/
theorem Line.Shows.stop_le {t : Target} (h : line.Shows t labels) (hsize : t.image.size < 2 ^ 32) :
    line.interval.stop ≤ t.image.size ∧ bytesOf line.extent = line.interval := by
  have hin := (Image.of_read? h.read?.1).2.1
  refine ⟨hin, ?_⟩
  simp only [bytesOf, extent, interval, codeEnd, UInt32.toNat_add, UInt32.toNat_ofNat']
  rw [Nat.mod_eq_of_lt (a := line.code.length) (by omega), Nat.mod_eq_of_lt (by omega)]

theorem Chain.contiguous {cursor : UInt32} {lines : List Line} (h : Chain cursor lines)
    (hend : ∀ line ∈ lines, bytesOf line.extent = line.interval) :
    Contiguous cursor.toNat lines := by
  induction h with
  | nil => trivial
  | last line => exact ⟨rfl, trivial⟩
  | @cons line lines hlt h ih =>
    obtain ⟨hline, hlines⟩ := List.forall_mem_cons.1 hend
    have hstop : (codeEnd line.offset line.code).toNat = line.offset.toNat + line.code.length :=
      congrArg Interval.stop hline
    exact ⟨rfl, hstop ▸ ih hlines⟩

/-- What a listing shows: the text of what was found in blocks whose codes lie apart. -/
theorem disassemble_eq {target : Target} (hcodes : ∀ code ∈ target.codes, code.WellFormed)
    (hsize : target.image.size < 2 ^ 32) (request : Request) (log : Log) :
    let blocks := decodedBlocks target request log
    ((blocks.flatMap Block.lines).Pairwise fun a b => (bytesOf a.extent).Apart (bytesOf b.extent)) ∧
      ∃ labels, Found target labels blocks ∧
        (disassemble target request log).1 = render target.pointerBase labels blocks := by
  unfold decodedBlocks disassemble
  dsimp only
  split
  · exact ⟨.nil, [], .nil target, rfl⟩
  · rename_i hin
    let context : Context :=
      { toTarget := target, mode := request.mode, sizeLimit := request.sizeLimit }
    let task : Task := ⟨request.start target.pointerBase, request.group⟩
    obtain ⟨hdecoded, hqueue⟩ := Context.run_spec (c := context) hcodes task (Nat.not_le.1 hin) log
    have hlisted := Context.run_listed (c := context) hsize
      (fun code hcode => (hcodes code hcode).length_pos) task log
    refine ⟨?_, _, hdecoded.found hqueue, rfl⟩
    -- Codes are noted in front of the older ones, and listed after them.
    have happart := hlisted.tidy.apart
    rw [hlisted.decoded, List.pairwise_reverse, List.pairwise_map] at happart
    exact happart.imp Interval.Apart.symm

/-- A listing decodes no byte twice and is well labelled.  The codes of its blocks lie apart, each
    block is a chain of codes from its start on, and no two blocks start at the same offset.  The text
    consists of lines, each of which stands where it was decoded; no line that defines a label comes
    twice, and a label that is used as an argument has its line. -/
theorem disassemble_well_labelled {registry : Registry} (hr : registry.Loaded) (game : String)
    {image : Image} (hsize : image.size < 2 ^ 32) (base : UInt32) (request : Request) (log : Log) :
    let target : Target := { image, codes := registry.forGame game, pointerBase := base }
    let blocks := decodedBlocks target request log
    ((blocks.flatMap Block.lines).Pairwise fun a b => a.interval.Apart b.interval) ∧
      (∀ b ∈ blocks, Contiguous b.start.toNat b.lines ∧
        ∀ line ∈ b.lines, 1 ≤ line.code.length ∧ line.interval.stop ≤ image.size) ∧
      (blocks.map Block.start).Nodup ∧
      ∃ entries : List Entry,
        let lines := entries.map (Entry.text base)
        (disassemble target request log).1 = joinLines lines ∧ (∀ s ∈ lines, '\n' ∉ s.toList) ∧
          entries.filterMap Entry.line? = blocks.flatMap Block.lines ∧
          (∀ cursor, Placed cursor entries) ∧
          (∀ offset, lines.count (label offset ++ ":") ≤ 1) ∧
          ∀ b ∈ blocks, ∀ line ∈ b.lines, ∀ operand ∈ line.operands, ∀ offset,
            operand.render base = label offset →
              lines.count (label offset ++ ":") = 1 ∧ .label offset ∈ entries := by
  intro target blocks
  have hcodes : ∀ code ∈ target.codes, code.WellFormed := fun code hcode =>
    wellFormed_of_mem_forGame hr.wellFormed hcode
  obtain ⟨happart, labels, hfound, htext⟩ := disassemble_eq hcodes hsize request log
  have hcount := count_label (fun line hline =>
    (hcodes _ (hfound.shows_of_mem_entries hline).code).name) base
  refine ⟨?_, fun b hb => ⟨?_, fun line hline => ?_⟩, hfound.nodup_starts, entries labels blocks, ?_,
    fun s hs => ?_, filterMap_line?_entries labels blocks, placed_entries labels hfound.chains,
    fun offset => ?_, ?_⟩
  · -- No code wraps around, so the bytes are those of its length.
    refine happart.imp_of_mem fun ha hb h => ?_
    rwa [((hfound.shows_of_mem ha).stop_le hsize).2,
      ((hfound.shows_of_mem hb).stop_le hsize).2] at h
  · exact (hfound.chains b hb).contiguous fun line hline =>
      ((hfound.lines b hb line hline).stop_le hsize).2
  · have hshows := hfound.lines b hb line hline
    exact ⟨(hcodes _ hshows.code).length_pos, (hshows.stop_le hsize).1⟩
  · rw [htext, render_eq]
  · obtain ⟨e, he, rfl⟩ := List.mem_map.1 hs
    exact hfound.oneLine hcodes he
  · rw [hcount]
    exact List.nodup_iff_count_le_one.1 hfound.nodup_entries offset
  · intro b hb line hline operand hoperand offset hrender
    obtain rfl := Operand.render_eq_label hrender
    -- The label was found, so it is named, and no offset is named twice.
    have hnamed := hfound.mem_named
      (hfound.mem_labels (List.mem_flatMap.2 ⟨b, hb, hline⟩) hoperand)
    obtain ⟨e, he, hoffset⟩ := List.mem_flatMap.1 hnamed
    rw [hcount]
    exact ⟨List.count_eq_one_of_mem hfound.nodup_entries hnamed, Entry.mem_named.1 hoffset ▸ he⟩

end CartScript.Listing

namespace CartScript.Sample

/-- Calls of a unit, of the call itself, and of an offset inside the first call. -/
def tangle : Image :=
  Array.replicate 0x10 0 ++ #[
    0x11, 0, 0, 0, 0x38, 0, 0, 0x08, 0, 0, 0, 0x09,
    0x11, 0, 0, 0, 0x1C, 0, 0, 0x08, 0, 0, 0, 0x09,
    0x11, 0, 0, 0, 0x14, 0, 0, 0x08, 0, 0, 0, 0x09, 0x22, 0, 0, 0,
    0x33, 0, 0, 0, 0x48, 0x69, 0, 0, 0xFE, 0xFF, 5, 0]

end CartScript.Sample

namespace CartScript.Listing

/-- A listing with labels of a block and of a code in a block; the address into a code has none. -/
theorem disassemble_well_labelled_tangle :
    let target : Target :=
      { image := Sample.tangle, codes := Sample.units.forGame "FE8", pointerBase := 0x08000000 }
    let request : Request := { offset := 0x10 }
    let text := (disassemble target request {}).1
    let blocks := decodedBlocks target request {}
    Sample.units.Loaded ∧ Sample.tangle.size < 2 ^ 32 ∧
      text = "ORG 0x10\nlabel_000010:\nCALL(label_000038, 0x1000000)\nlabel_00001C:\n" ++
        "CALL(label_00001C, 0x1000000)\nCALL(0x14, 0x1000000)\nEND\n\n" ++
        "ORG 0x38\nlabel_000038:\nUNIT(\"Hi\", [-2, 5])\n" ∧
      ((blocks.flatMap Block.lines).Pairwise fun a b => a.interval.Apart b.interval) ∧
      (blocks.map Block.start).Nodup ∧
      ∃ entries : List Entry, text = joinLines (entries.map (Entry.text 0x08000000)) ∧
        ∀ offset, (entries.map (Entry.text 0x08000000)).count (label offset ++ ":") ≤ 1 := by
  intro target request text blocks
  have hsize : Sample.tangle.size < 2 ^ 32 := by decide +kernel
  obtain ⟨happart, _, hnodup, entries, htext, _, _, _, honce, _⟩ :=
    disassemble_well_labelled Sample.units_loaded "FE8" hsize 0x08000000 request {}
  exact ⟨Sample.units_loaded, hsize, by decide +kernel, happart, hnodup, entries, htext, honce⟩

end CartScript.Listing
