import CartScript.Proofs.Assembly.Blocks

/-!
# What an assembly touches

An assembly that does not fail changes no byte but those of its statements and those of the data that
it places in free space.  The data keeps off everything else, so it is found in the image at the end,
at the offset that its field points to.
-/

namespace CartScript

/-! ## Reading -/

/-- Bytes that are all there are read. -/
theorem Image.read?_eq_some {image : Image} {offset : UInt32} {bytes : List UInt8}
    (hin : offset.toNat + bytes.length ≤ image.size)
    (h : ∀ k, k < bytes.length → image[offset.toNat + k]? = bytes[k]?) :
    image.read? offset bytes.length = some bytes := by
  rw [read?, if_pos hin, Option.some.injEq]
  refine List.ext_getElem? fun k => ?_
  rw [Array.getElem?_toList, Array.getElem?_extract]
  by_cases hk : k < bytes.length
  · rw [if_pos (by omega), h k hk]
  · rw [if_neg (by omega), List.getElem?_eq_none (by omega)]

theorem Encoding.toInt_ofNat_toNat (word : UInt32) :
    (Int64.ofNat word.toNat).toInt = word.toNat := by
  have hword := word.toNat_lt
  rw [Int64.toInt_ofNat_of_lt (by omega)]

/-- The sum of two words, as a value. -/
theorem Encoding.toInt_ofNat_add_ofNat (a b : UInt32) :
    (Int64.ofNat a.toNat + Int64.ofNat b.toNat).toInt = a.toNat + b.toNat := by
  have ha := a.toNat_lt
  have hb := b.toNat_lt
  rw [Int64.toInt_add, toInt_ofNat_toNat, toInt_ofNat_toNat,
    Int.bmod_eq_of_le (by omega) (by omega)]

/-- The address of an offset is not negative. -/
theorem Encoding.pointer_nonneg (offset base : UInt32) :
    0 ≤ (pointer (Int64.ofNat offset.toNat) base).toInt := by
  unfold pointer
  split
  · rw [toInt_ofNat_add_ofNat]
    omega
  · rw [toInt_ofNat_toNat]
    omega

/-- The address of an offset other than 0 is taken back to the offset. -/
theorem Encoding.unpointer?_of_pointer {offset base : UInt32} {raw : Nat} (hpos : 1 ≤ offset.toNat)
    (hlimit : offset.toNat < pointerLimit)
    (hraw : (raw : Int) = (pointer (Int64.ofNat offset.toNat) base).toInt) :
    unpointer? raw base = some offset := by
  unfold pointerLimit at hlimit
  have hcondition : 0 < Int64.ofNat offset.toNat ∧
      (Int64.ofNat offset.toNat).toInt < (pointerLimit : Nat) := by
    rw [Int64.lt_iff_toInt_lt, toInt_ofNat_toNat, pointerLimit]
    exact ⟨by simp; omega, by omega⟩
  rw [pointer, if_pos hcondition, toInt_ofNat_add_ofNat] at hraw
  -- An offset below the limit was moved up by the base, and is moved down again.
  have hsum : raw = base.toNat + offset.toNat := by omega
  rw [unpointer?, if_pos ⟨by omega, by unfold pointerLimit; omega⟩, hsum, Nat.add_sub_cancel_left,
    UInt32.ofNat_toNat]

namespace Assembly

/-! ## Bytes that stay -/

variable {protections : List Protection} {f : PlacedField} {span : Span} {symbols : Symbols}
  {context : Context} {image : Image} {patch : Patch} {piece : Piece} {item : Item} {i size : Nat}

/-- Bytes may be written that lie in the image, if no protection overlaps them. -/
theorem checkWrite_eq_ok_iff :
    checkWrite span size protections = .ok () ↔ span.interval.stop ≤ size ∧ ∀ p ∈ protections,
      span.interval.stop ≤ p.interval.start ∨ p.interval.stop ≤ span.interval.start := by
  have hfind : (protections.find? fun p =>
      p.start.toNat < span.interval.stop && span.interval.start < p.stop.toNat) = none ↔
      ∀ p ∈ protections,
        span.interval.stop ≤ p.interval.start ∨ p.interval.stop ≤ span.interval.start := by
    simp only [List.find?_eq_none, Bool.and_eq_true, decide_eq_true_eq, Protection.interval]
    exact forall₂_congr fun p _ => by omega
  simp only [checkWrite]
  split
  · rename_i hout
    simp only [reduceCtorEq, false_iff]
    omega
  · rename_i hin
    rw [← hfind]
    split
    · rename_i p hp
      simp [hp]
    · rename_i hnone
      simp only [hnone, true_iff, and_true]
      omega

/-- Bytes that may be written lie in the image, and none of them is protected. -/
theorem of_checkWrite (h : checkWrite span size protections = .ok ()) :
    span.interval.stop ≤ size ∧ ∀ p ∈ protections, ∀ i, p.interval.contains i = true →
      span.interval.contains i = false := by
  obtain ⟨hin, hoff⟩ := checkWrite_eq_ok_iff.1 h
  refine ⟨hin, fun p hp i hi => ?_⟩
  have hi := Interval.contains_iff.1 hi
  have hoff := hoff p hp
  rw [Interval.contains_eq_false_iff]
  omega

theorem getElem?_commit_of_outside {patches : List Patch} (h : span.interval.contains i = false) :
    (commit protections span patches image)[i]? = image[i]? := by
  unfold commit
  split
  · refine Image.getElem?_overwrite_of_outside image ?_
    rw [Patch.length_render]
    exact Interval.contains_eq_false_iff.1 h
  · rfl

/-- The statements of items leave a byte as it is that lies in none of their spans. -/
theorem Item.getElem?_foldl_write (context : Context) (symbols : Symbols)
    (protections : List Protection) {items : List Item}
    (h : ∀ item ∈ items, ∀ piece, item.piece = some piece → piece.span.interval.contains i = false)
    (image : Image) :
    (items.foldl (Item.write context symbols protections) image)[i]? = image[i]? := by
  induction items generalizing image with
  | nil => rfl
  | cons item items ih =>
    obtain ⟨hitem, hitems⟩ := List.forall_mem_cons.1 h
    rw [List.foldl_cons, ih hitems, write]
    split
    · rfl
    · rename_i piece hpiece
      exact getElem?_commit_of_outside (hitem piece hpiece)

@[simp]
theorem Item.size_foldl_write (context : Context) (symbols : Symbols)
    (protections : List Protection) (items : List Item) (image : Image) :
    (items.foldl (Item.write context symbols protections) image).size = image.size := by
  induction items generalizing image with
  | nil => rfl
  | cons item items ih => rw [List.foldl_cons, ih, size_write]

namespace InlineBlock

@[simp]
theorem size_write (symbols : Symbols) (image : Image) (b : InlineBlock) :
    (b.write symbols image).size = image.size := by
  unfold write
  split
  · rfl
  · split
    · exact Image.size_overwrite ..
    · rfl

@[simp]
theorem size_foldl_write (symbols : Symbols) (blocks : List InlineBlock) (image : Image) :
    (blocks.foldl (write symbols) image).size = image.size := by
  induction blocks generalizing image with
  | nil => rfl
  | cons b blocks ih => rw [List.foldl_cons, ih, size_write]

/-- Data leaves a byte as it is that lies in none of the blocks. -/
theorem getElem?_foldl_write (symbols : Symbols) {blocks : List InlineBlock} {i : Nat}
    (h : ∀ b ∈ blocks, b.interval.contains i = false) (image : Image) :
    (blocks.foldl (write symbols) image)[i]? = image[i]? := by
  induction blocks generalizing image with
  | nil => rfl
  | cons b blocks ih =>
    obtain ⟨hb, hblocks⟩ := List.forall_mem_cons.1 h
    rw [List.foldl_cons, ih hblocks, write]
    split
    · rfl
    · rename_i offset hoffset
      split
      · rename_i bytes hbytes
        refine Image.getElem?_overwrite_of_outside image ?_
        rw [Arg.length_inlineBytes hbytes]
        simpa [interval, hoffset, size] using Interval.contains_eq_false_iff.1 hb
      · rfl

end InlineBlock

namespace Course

/-- A byte stays as it was that neither a statement nor data lies over. -/
theorem getElem?_twoPassImage (c : Course) (context : Context) {i : Nat}
    (hitems : ∀ item ∈ c.items, ∀ piece, item.piece = some piece →
      piece.span.interval.contains i = false)
    (hblocks : ∀ b ∈ c.blocks, b.interval.contains i = false) (image : Image) :
    (c.twoPassImage context image)[i]? = image[i]? := by
  rw [twoPassImage, InlineBlock.getElem?_foldl_write _ hblocks, Item.getElem?_foldl_write _ _ _ hitems]

/-! ## Courses without faults -/

/-- What the absence of faults says about a course. -/
structure Clean (context : Context) (size : Nat) (c : Course) : Prop where
  checked : ∀ item ∈ c.items, ∀ piece, item.piece = some piece →
    checkWrite piece.span size c.protections = .ok ()
  resolved : ∀ item ∈ c.items, ∀ piece, item.piece = some piece → ∀ f ∈ piece.fields,
    ∃ patch, f.resolve c.symbols piece.span.offset context.pointerBase = .ok patch
  filled : ∀ b ∈ c.blocks, ∀ offset, b.offset = some offset →
    ∃ bytes, b.data.inlineBytes b.element offset c.symbols = .ok bytes

variable {size : Nat} {context : Context} {c : Course}

theorem checkWrite_of_faultless {protections : List Protection} {item : Item}
    (h : Event.Faultless (item.checked protections size)) {piece : Piece}
    (hp : item.piece = some piece) : checkWrite piece.span size protections = .ok () := by
  rw [Item.checked, hp, Option.toList_some, List.flatMap_singleton] at h
  exact (Event.exists_of_faultless h).elim fun _ h => h

theorem exists_bytes_of_faultless {symbols : Symbols} {b : InlineBlock}
    (h : Event.Faultless (b.events symbols)) {offset : UInt32} (hoffset : b.offset = some offset) :
    ∃ bytes, b.data.inlineBytes b.element offset symbols = .ok bytes := by
  rw [InlineBlock.events, hoffset] at h
  exact Event.exists_of_faultless h

theorem clean_of_faultless (h : Event.Faultless (c.twoPassEvents context size)) :
    c.Clean context size := by
  simp only [twoPassEvents, Event.faultless_append, Event.faultless_flatMap] at h
  obtain ⟨⟨_, hitems⟩, hblocks⟩ := h
  -- What was reported of an item with a piece: its fields, and whether it may be written.
  have hpiece : ∀ item ∈ c.items, ∀ piece, item.piece = some piece →
      Event.Faultless (PlacedField.events c.symbols item.passage.position piece.span.offset
          context.pointerBase piece.fields) ∧
        Event.Faultless (item.checked c.protections size) := by
    intro item hitem piece hp
    have hevents := hitems item hitem
    simp only [Item.emitted, hp, Event.faultless_append] at hevents
    exact ⟨hevents.2.1.2, hevents.2.2⟩
  refine ⟨fun item hitem piece hp => checkWrite_of_faultless (hpiece item hitem piece hp).2 hp,
    fun item hitem piece hp f hf => ?_, fun b hb _ => exists_bytes_of_faultless (hblocks b hb)⟩
  exact Event.exists_of_faultless (Event.faultless_flatMap.1 (hpiece item hitem piece hp).1 f hf)

theorem faultless_preparing (h : Event.Faultless (c.twoPassEvents context size)) :
    Event.Faultless c.preparing := by
  simp only [twoPassEvents, Event.faultless_append] at h
  exact h.1.1.2

end Course

/-! ## The field of placed data -/

/-- The field of placed data reads back as the offset of the data. -/
theorem PlacedField.unpointer?_of_resolve (hf : f.toField.Sound) {data : Arg} {element : Nat}
    (hsource : f.source = .inline data element) (hpos : 1 ≤ f.address.toNat)
    (hlimit : f.address.toNat < Encoding.pointerLimit) {here base : UInt32}
    (h : f.resolve symbols here base = .ok patch) :
    Encoding.unpointer? (Encoding.readUnsigned patch.bytes) base = some f.address := by
  obtain ⟨_, hpointer⟩ := hf.inline data element hsource
  have hwidth := hf.width_le
  simp only [resolve, hsource, Field.encode, hpointer, if_true] at h
  obtain ⟨bytes, hbytes, rfl⟩ := Except.map_eq_ok_iff.1 h
  refine Encoding.unpointer?_of_pointer hpos hlimit ?_
  refine Encoding.readUnsigned_of_int hwidth ?_ hbytes
  -- The address of an offset is not negative.
  exact Encoding.pointer_nonneg f.address base

/-- A field lies in the bytes of its statement. -/
theorem Item.PieceOf.stop_le (h : PieceOf context item piece) (hf : f ∈ piece.fields) :
    f.start + f.width ≤ piece.span.size := by
  refine h.neat.within f.toField.interval (List.mem_append_right _ ?_)
  rw [← h.fields]
  exact List.mem_map_of_mem (List.mem_map_of_mem hf)

/-- The bytes of a field are found in what its statement writes. -/
theorem Item.getElem?_write_of_field (hpiece : PieceOf context item piece)
    (hp : item.piece = some piece) (hcheck : checkWrite piece.span image.size protections = .ok ())
    (hf : f ∈ piece.fields)
    (hpatch : f.resolve symbols piece.span.offset context.pointerBase = .ok patch) {k : Nat}
    (hk : k < f.width) :
    (item.write context symbols protections image)[piece.span.offset.toNat + (f.start + k)]? =
      patch.bytes[k]? := by
  have hinterval := PlacedField.interval_of_resolve hpatch
  have hstart : patch.start = f.start := congrArg Interval.start hinterval
  have hstop : patch.start + patch.bytes.length = f.start + f.width :=
    congrArg Interval.stop hinterval
  -- The patch of the field is one of those that are rendered, which lie apart.
  have hmem : patch ∈ piece.layout.fixed ++
      PlacedField.patches symbols piece.span.offset context.pointerBase piece.fields := by
    refine List.mem_append_right _ (List.mem_filterMap.2 ⟨f, hf, ?_⟩)
    rw [hpatch]
    rfl
  have hwithin := hpiece.stop_le hf
  have hsize := (of_checkWrite hcheck).1
  simp only [Span.interval] at hsize
  simp only [write, hp, commit, hcheck]
  rw [Image.getElem?_overwrite_of_inside _ (by omega) (by rw [Patch.length_render]; omega) (by omega),
    Nat.add_sub_cancel_left,
    Patch.getElem?_render_of_mem (hpiece.disjoint symbols context.pointerBase) (by omega) hmem
      (Interval.contains_iff.2 ⟨by simp only [Patch.interval]; omega,
        by simp only [Patch.interval]; omega⟩),
    hstart, Nat.add_sub_cancel_left]

namespace Course

/-! ## What is known of the blocks -/

section Along

variable (program : Program) (context : Context) (image : Image)

/-- The blocks lie apart, and all that they lie over is free. -/
theorem blocks_free (hlimit : image.size ≤ 2 ^ 32) :
    let c := along (fun p => p.slot.span) program context image
    (c.blocks.Pairwise fun a b => ∀ i, a.interval.contains i = true → b.interval.contains i = false) ∧
      ∀ b ∈ c.blocks, ∀ i, b.interval.contains i = true →
        i ≠ 0 ∧ image[i]? = some context.freeSpace.byte ∧
          (∀ p ∈ c.trail, ∀ span, p.slot.span = some span → span.interval.contains i = false) ∧
          ∀ protection ∈ c.protections, protection.interval.contains i = false := by
  intro c
  obtain ⟨hsorted, himage, hpolicy, htaken⟩ := Placing.start_spec context image { log := {} }
    (c.trail.filterMap fun p => p.slot.span) c.protections
  have hgrants := (Placing.Grants.start rfl hsorted rfl).placeTrail
    (le_of_eq_of_le (congrArg Array.size himage) hlimit) context.registry c.trail
  refine ⟨hgrants.apart, fun b hb i hi => ?_⟩
  obtain ⟨hfree, hne⟩ := hgrants.free b hb i hi
  simp only [Allocator.isFree, Bool.and_eq_true, beq_iff_eq, Bool.not_eq_true', himage,
    hpolicy] at hfree
  -- A free byte is not taken from the start.
  have hoff := mt (htaken i).2 (by simp [hfree.2])
  simp only [not_or, not_exists, not_and, Bool.not_eq_true] at hoff
  exact ⟨hne, hfree.1, fun p hp span hspan =>
    hoff.1 span (List.mem_filterMap.2 ⟨p, hp, hspan⟩), hoff.2⟩

/-- Every statement that protects bytes does so, wherever it stands. -/
theorem exists_protection {span? : Passage → Option Span} :
    let c := along span? program context image
    Event.Faultless c.preparing → ∀ p ∈ c.trail, ∀ request, p.slot.protection? = some request →
      ∃ protection ∈ c.protections,
        request.resolve c.symbols context.pointerBase = .ok protection := by
  intro c h p hp request hrequest
  have hrequests := (Event.faultless_append.1 (Event.faultless_append.1 h).1).2
  have hmem : request ∈ c.trail.filterMap fun p => p.slot.protection? :=
    List.mem_filterMap.2 ⟨p, hp, hrequest⟩
  obtain ⟨protection, hresolve⟩ :=
    Event.exists_of_faultless (Event.faultless_flatMap.1 hrequests request hmem)
  refine ⟨protection, List.mem_filterMap.2 ⟨request, hmem, ?_⟩, hresolve⟩
  rw [hresolve]
  rfl

end Along

/-! ## What is found in the end -/

section Found

variable {c : Course} {context : Context} {image : Image}

/-- The bytes of a block are found in the end, as data is written last and lies apart. -/
theorem read?_block
    (happart : c.blocks.Pairwise fun a b =>
      ∀ i, a.interval.contains i = true → b.interval.contains i = false)
    {b : InlineBlock} (hb : b ∈ c.blocks) {offset : UInt32} (hoffset : b.offset = some offset)
    {bytes : List UInt8} (hbytes : b.data.inlineBytes b.element offset c.symbols = .ok bytes)
    (hin : offset.toNat + bytes.length ≤ image.size) :
    (c.twoPassImage context image).read? offset bytes.length = some bytes := by
  have hlength := Arg.length_inlineBytes hbytes
  -- Blocks before this one do not matter, and blocks after it lie apart from it.
  obtain ⟨before, after, hsplit⟩ := List.append_of_mem hb
  rw [hsplit] at happart
  refine Image.read?_eq_some (by simpa [twoPassImage] using hin) fun k hk => ?_
  have hcovered : b.interval.contains (offset.toNat + k) = true :=
    InlineBlock.contains_iff.2 ⟨offset, hoffset, by omega, by rw [InlineBlock.size]; omega⟩
  have hlater : ∀ later ∈ after, later.interval.contains (offset.toNat + k) = false :=
    fun later h => (List.pairwise_cons.1 (List.pairwise_append.1 happart).2.1).1 later h _ hcovered
  rw [twoPassImage, hsplit, List.foldl_append, List.foldl_cons,
    InlineBlock.getElem?_foldl_write _ hlater]
  simp only [InlineBlock.write, hoffset, hbytes]
  rw [Image.getElem?_overwrite_of_inside _ (by omega) (by omega) (by simp; omega),
    Nat.add_sub_cancel_left]

/-- The bytes of a field are found in the end, if no later statement and no data lies over them. -/
theorem read?_field (hclean : c.Clean context image.size) {before after : List Item} {item : Item}
    (hsplit : c.items = before ++ item :: after) {piece : Piece} (hp : item.piece = some piece)
    (hpiece : Item.PieceOf context item piece) {f : PlacedField} (hf : f ∈ piece.fields)
    {patch : Patch} (hpatch : f.resolve c.symbols piece.span.offset context.pointerBase = .ok patch)
    (hlimit : image.size ≤ 2 ^ 32) (hwidth : 1 ≤ f.width)
    (hlater : ∀ later ∈ after, ∀ other, later.piece = some other → ∀ k, k < f.width →
      other.span.interval.contains (piece.span.offset.toNat + (f.start + k)) = false)
    (hblocks : ∀ b ∈ c.blocks, ∀ k, k < f.width →
      b.interval.contains (piece.span.offset.toNat + (f.start + k)) = false) :
    (c.twoPassImage context image).read?
      (UInt32.ofNat (piece.span.offset.toNat + f.start)) f.width = some patch.bytes := by
  have hcheck := hclean.checked item (by simp [hsplit]) piece hp
  have hsize := (of_checkWrite hcheck).1
  have hwithin : f.start + f.width ≤ piece.span.size := hpiece.stop_le hf
  have hlength : patch.bytes.length = f.width := by
    have hstop := congrArg Interval.size (PlacedField.interval_of_resolve hpatch)
    simpa [Interval.size, Patch.interval, Field.interval] using hstop
  simp only [Span.interval] at hsize
  -- The field lies in the image, so its offset does not wrap around.
  have hoffset : (UInt32.ofNat (piece.span.offset.toNat + f.start)).toNat =
      piece.span.offset.toNat + f.start := UInt32.toNat_ofNat_of_lt' (by
    show _ < 2 ^ 32
    omega)
  rw [← hlength]
  refine Image.read?_eq_some (by rw [hoffset, hlength]; simp [twoPassImage]; omega) fun k hk => ?_
  rw [hlength] at hk
  -- From the end: no block and no later statement lies over the byte, so it is the field's.
  rw [hoffset, Nat.add_assoc, twoPassImage,
    InlineBlock.getElem?_foldl_write _ (fun b hb => hblocks b hb k hk), hsplit, List.foldl_append,
    List.foldl_cons,
    Item.getElem?_foldl_write _ _ _ (fun later h other ho => hlater later h other ho k hk)]
  exact Item.getElem?_write_of_field hpiece hp (by simpa using hcheck) hf hpatch hk

end Found

end Course

/-! ## The footprint -/

/-- What an assembly touches and what it leaves in free space. -/
structure Footprint (program : Program) (context : Context) (c : Course) (image final : Image) :
    Prop where
  /-- The course leads past all statements. -/
  statements : c.trail.map (fun p => p.slot.statement) = program
  items : c.items.map Item.passage = c.trail
  size : final.size = image.size
  /-- A byte that changes lies in the bytes of a statement or in a block of data. -/
  touched : ∀ i, final[i]? ≠ image[i]? →
    (∃ p ∈ c.trail, ∃ span, p.slot.span = some span ∧ span.interval.contains i = true) ∨
      ∃ b ∈ c.blocks, b.interval.contains i = true
  /-- Every statement that protects bytes counts, wherever it stands. -/
  protects : ∀ p ∈ c.trail, ∀ request, p.slot.protection? = some request →
    ∃ protection ∈ c.protections, request.resolve c.symbols context.pointerBase = .ok protection
  /-- No protected byte changes. -/
  kept : ∀ protection ∈ c.protections, ∀ i, protection.interval.contains i = true →
    final[i]? = image[i]?
  /-- No two blocks share a byte. -/
  apart : c.blocks.Pairwise fun a b =>
    ∀ i, a.interval.contains i = true → b.interval.contains i = false
  /-- Blocks lie over free bytes only: not over offset 0, a statement, or a protected byte. -/
  free : ∀ b ∈ c.blocks, ∀ i, b.interval.contains i = true →
    i ≠ 0 ∧ image[i]? = some context.freeSpace.byte ∧
      (∀ p ∈ c.trail, ∀ span, p.slot.span = some span → span.interval.contains i = false) ∧
      ∀ protection ∈ c.protections, protection.interval.contains i = false
  /-- The fields with data and the blocks go in pairs, in the same order. -/
  paired : BlocksFor (c.items.flatMap Item.fields) c.blocks
  /-- Each block is the data of a field, to which it gives its offset, and holds the bytes of the data
      in the end. -/
  holds : ∀ b ∈ c.blocks, (∃ item ∈ c.items, ∃ f ∈ item.fields,
      f.source = .inline b.data b.element ∧ b.offset = some f.address) ∧
    ∃ offset bytes, b.data.inlineBytes b.element offset c.symbols = .ok bytes ∧
      b.interval = ⟨offset.toNat, offset.toNat + bytes.length⟩ ∧
      final.read? offset bytes.length = some bytes
  /-- Each field with data has a block.  Unless a later statement writes over it, the field reads back
      as the offset of the block. -/
  pointer : ∀ before item after, c.items = before ++ item :: after →
    ∀ piece, item.piece = some piece → ∀ f ∈ piece.fields, ∀ data element,
      f.source = .inline data element →
      ∃ b ∈ c.blocks, b.data = data ∧ b.element = element ∧ b.offset = some f.address ∧
        ((∀ later ∈ after, ∀ span, later.passage.slot.span = some span → ∀ k, k < f.width →
            span.interval.contains (piece.span.offset.toNat + (f.start + k)) = false) →
          ∃ bytes,
            final.read? (UInt32.ofNat (piece.span.offset.toNat + f.start)) f.width = some bytes ∧
            Encoding.unpointer? (Encoding.readUnsigned bytes) context.pointerBase = b.offset)

namespace Course

/-- A course of a sound program without faults, whose data has its places. -/
structure Grounded (context : Context) (image : Image) (c : Course) : Prop where
  sound : c.Sound context
  clean : c.Clean context image.size
  apart : c.blocks.Pairwise fun a b =>
    ∀ i, a.interval.contains i = true → b.interval.contains i = false
  free : ∀ b ∈ c.blocks, ∀ i, b.interval.contains i = true →
    i ≠ 0 ∧ image[i]? = some context.freeSpace.byte ∧
      (∀ p ∈ c.trail, ∀ span, p.slot.span = some span → span.interval.contains i = false) ∧
      ∀ protection ∈ c.protections, protection.interval.contains i = false
  belongs : BlocksFor (c.items.flatMap Item.fields) c.blocks
  placed : ∀ b ∈ c.blocks, b.offset.isSome = true

variable {c : Course} {context : Context} {image : Image}

theorem Sound.span_of_piece (h : c.Sound context) {item : Item} (hitem : item ∈ c.items)
    {piece : Piece} (hp : item.piece = some piece) :
    item.passage ∈ c.trail ∧ item.passage.slot.span = some piece.span := by
  refine ⟨?_, ((h.items item hitem).pieceOf hp).span⟩
  rw [← h.trail]
  exact List.mem_map_of_mem hitem

namespace Grounded

/-- The field to which a block belongs. -/
theorem exists_field (h : c.Grounded context image) {b : InlineBlock} (hb : b ∈ c.blocks) :
    ∃ item ∈ c.items, ∃ f ∈ item.fields,
      f.source = .inline b.data b.element ∧ b.offset = some f.address := by
  obtain ⟨f, hf, hsource, haddress⟩ := h.belongs.field hb
  obtain ⟨offset, hoffset⟩ := Option.isSome_iff_exists.1 (h.placed b hb)
  obtain ⟨item, hitem, hf⟩ := List.mem_flatMap.1 hf
  exact ⟨item, hitem, f, hf, hsource, by rw [← haddress, hoffset, Option.getD_some]⟩

/-- The place and the bytes of a block: there are some, and they lie in the image. -/
theorem bytes_of_block (h : c.Grounded context image) {b : InlineBlock} (hb : b ∈ c.blocks) :
    ∃ offset bytes, b.offset = some offset ∧
      b.data.inlineBytes b.element offset c.symbols = .ok bytes ∧
      b.interval = ⟨offset.toNat, offset.toNat + bytes.length⟩ ∧
      1 ≤ offset.toNat ∧ 1 ≤ bytes.length ∧ offset.toNat + bytes.length ≤ image.size := by
  obtain ⟨offset, hoffset⟩ := Option.isSome_iff_exists.1 (h.placed b hb)
  obtain ⟨bytes, hbytes⟩ := h.clean.filled b hb offset hoffset
  have hlength := Arg.length_inlineBytes hbytes
  have hinterval : b.interval = ⟨offset.toNat, offset.toNat + bytes.length⟩ := by
    rw [InlineBlock.interval, hoffset, InlineBlock.size, hlength]
  -- The data belongs to a field of a sound statement, so it is not empty.
  have hpos : 1 ≤ bytes.length := by
    obtain ⟨item, hitem, f, hf, hsource, -⟩ := h.exists_field hb
    obtain ⟨piece, hp, hf⟩ := List.mem_flatMap.1 hf
    have hpiece := (h.sound.items item hitem).pieceOf (Option.mem_toList.1 hp)
    rw [hlength]
    exact ((hpiece.sound f hf).inline _ _ hsource).1.inlineSize_pos
  have hcovers : ∀ i, offset.toNat ≤ i → i < offset.toNat + bytes.length →
      b.interval.contains i = true := by
    intro i hstart hstop
    rw [hinterval]
    exact Interval.contains_iff.2 ⟨hstart, hstop⟩
  -- The first byte tells that the block is not at offset 0, and the last one that it lies in the
  -- image.
  have hfirst := (h.free b hb _ (hcovers offset.toNat (by omega) (by omega))).1
  have hlast := (h.free b hb _ (hcovers (offset.toNat + bytes.length - 1) (by omega) (by omega))).2.1
  obtain ⟨hin, _⟩ := Array.getElem?_eq_some_iff.1 hlast
  exact ⟨offset, bytes, hoffset, hbytes, hinterval, by omega, hpos, by omega⟩

theorem touched (h : c.Grounded context image) {i : Nat}
    (hi : (c.twoPassImage context image)[i]? ≠ image[i]?) :
    (∃ p ∈ c.trail, ∃ span, p.slot.span = some span ∧ span.interval.contains i = true) ∨
      ∃ b ∈ c.blocks, b.interval.contains i = true := by
  by_contra hnone
  simp only [not_or, not_exists, not_and, Bool.not_eq_true] at hnone
  refine hi (c.getElem?_twoPassImage context (fun item hitem piece hp => ?_) hnone.2 image)
  obtain ⟨htrail, hspan⟩ := h.sound.span_of_piece hitem hp
  exact hnone.1 item.passage htrail piece.span hspan

theorem kept (h : c.Grounded context image) {protection : Protection}
    (hprotection : protection ∈ c.protections) {i : Nat}
    (hi : protection.interval.contains i = true) :
    (c.twoPassImage context image)[i]? = image[i]? := by
  refine c.getElem?_twoPassImage context (fun item hitem piece hp => ?_) (fun b hb => ?_) image
  · exact (of_checkWrite (h.clean.checked item hitem piece hp)).2 protection hprotection i hi
  · -- A block that covers the byte would lie over a protected one.
    by_contra hcovered
    rw [Bool.not_eq_false] at hcovered
    rw [(h.free b hb i hcovered).2.2.2 protection hprotection] at hi
    simp at hi

/-- The field of data reads back as the offset of the data, unless it is written over. -/
theorem pointer (h : c.Grounded context image) (hsize : image.size ≤ Encoding.pointerLimit)
    {before after : List Item} {item : Item} (hsplit : c.items = before ++ item :: after)
    {piece : Piece} (hp : item.piece = some piece) {f : PlacedField} (hf : f ∈ piece.fields)
    {data : Arg} {element : Nat} (hsource : f.source = .inline data element) :
    ∃ b ∈ c.blocks, b.data = data ∧ b.element = element ∧ b.offset = some f.address ∧
      ((∀ later ∈ after, ∀ span, later.passage.slot.span = some span → ∀ k, k < f.width →
          span.interval.contains (piece.span.offset.toNat + (f.start + k)) = false) →
        ∃ bytes, (c.twoPassImage context image).read?
            (UInt32.ofNat (piece.span.offset.toNat + f.start)) f.width = some bytes ∧
          Encoding.unpointer? (Encoding.readUnsigned bytes) context.pointerBase = b.offset) := by
  have hitem : item ∈ c.items := by simp [hsplit]
  have hpiece := (h.sound.items item hitem).pieceOf hp
  have hfield : f ∈ c.items.flatMap Item.fields :=
    List.mem_flatMap.2 ⟨item, hitem, by simpa [Item.fields, hp] using hf⟩
  obtain ⟨b, hb, hdata, helement, haddress⟩ := h.belongs.block hfield hsource
  obtain ⟨offset, bytes, hoffset, _, _, hpos, hlength, hin⟩ := h.bytes_of_block hb
  obtain rfl : offset = f.address := by rw [← haddress, hoffset, Option.getD_some]
  refine ⟨b, hb, hdata, helement, hoffset, fun hlater => ?_⟩
  obtain ⟨patch, hpatch⟩ := h.clean.resolved item hitem piece hp f hf
  have hwidth := (hpiece.sound f hf).width_pos
  have hwithin := hpiece.stop_le hf
  refine ⟨patch.bytes, read?_field h.clean hsplit hp hpiece hf hpatch
    (Nat.le_trans hsize (by decide)) hwidth (fun later hmem other hother k hk => ?_)
    (fun b hb k hk => ?_), ?_⟩
  · have hspan := (h.sound.span_of_piece (by simp [hsplit, hmem]) hother).2
    exact hlater later hmem other.span hspan k hk
  · -- The field lies in the bytes of its statement, and data keeps off them.
    by_contra hcovered
    rw [Bool.not_eq_false] at hcovered
    obtain ⟨htrail, hspan⟩ := h.sound.span_of_piece hitem hp
    have hoff := (h.free b hb _ hcovered).2.2.1 item.passage htrail piece.span hspan
    rw [Interval.contains_eq_false_iff] at hoff
    simp only [Span.interval] at hoff
    omega
  · rw [hoffset]
    exact PlacedField.unpointer?_of_resolve (hpiece.sound f hf) hsource hpos (by omega) hpatch

end Grounded

/-- The course of a sound program without faults is grounded. -/
theorem grounded_along {program : Program} (hsize : image.size ≤ 2 ^ 32)
    (hsound : (along (fun p => p.slot.span) program context image).Sound context)
    (hevents : Event.Faultless
      ((along (fun p => p.slot.span) program context image).twoPassEvents context image.size)) :
    (along (fun p => p.slot.span) program context image).Grounded context image := by
  obtain ⟨happart, hfree⟩ := blocks_free program context image hsize
  obtain ⟨hfor, hplaced⟩ := blocksFor (fun p => p.slot.span) program context image
  exact ⟨hsound, clean_of_faultless hevents, happart, hfree, hfor,
    hplaced (faultless_preparing hevents)⟩

end Course

end Assembly

namespace Engine

open Assembly

variable {context : Assembly.Context} {program : Program} {engine : Engine} {image : Image}
  {log : Log}

/-- An engine that does not fail reports no fault. -/
theorem faultless_of_not_failsSince
    (h : ¬ log.FailsSince (engine.assemble program context image log).2) :
    Event.Faultless (engine.events program context image) := by
  rw [assemble_eq_conclude] at h
  intro e he hseverity
  exact mt failsSince_conclude.2 h ⟨e, he, by rw [hseverity]; rfl⟩

/-- What the absence of a failure says: what was written counts, and there is no fault. -/
theorem of_not_failsSince (hr : context.registry.WellFormed)
    (hs : ∀ st ∈ program, st.value.Sound context.registry)
    (h : ¬ log.FailsSince (engine.assemble program context image log).2) :
    (engine.assemble program context image log).1 =
        (twoPass.course program context image).twoPassImage context image ∧
      Event.Faultless ((twoPass.course program context image).twoPassEvents context image.size) := by
  have hcourse : (twoPass.course program context image).Sound context :=
    Course.sound_along _ image hr hs
  have hfaultless := faultless_of_not_failsSince h
  rw [assemble_eq_conclude] at h ⊢
  have hquiet := mt failsSince_conclude.2 h
  -- Nothing failed, so what was written counts.
  have hwritten : (conclude image log (engine.written program context image)
      (engine.events program context image)).1 = engine.written program context image := by
    rw [← Report.errorCount_lt_recordAll_iff] at hquiet
    simp only [conclude, Writing.finish, if_neg hquiet]
  rw [hwritten]
  cases engine with
  | twoPass => exact ⟨rfl, hfaultless⟩
  | onePass =>
    rw [events, course_eq image hr hs onePass] at hfaultless
    rw [written, course_eq image hr hs onePass]
    exact ⟨(hcourse.twoPassImage_eq image).symm, fun e he =>
      hfaultless e ((hcourse.events_perm image.size).mem_iff.1 he)⟩

end Engine

end CartScript
