import CartScript.Proofs.Assembly.Diagnostics

/-!
# Nothing out of range

An image drops what is written past its end.  Here are the same steps of an assembly with writes that
must lie within what is written to; for a program that comes from a script none of them stops.  What a
script has been checked for is also all that an assembly asks of expressions, codes and arguments.
-/

namespace CartScript

/-! ## Arguments and their parts -/

namespace Layout

/-- An argument has parts if and only if it suits its parameter. -/
theorem exists_ofArg_iff (code : Code) (param : Param) (arg : Arg) :
    (∃ l, ofArg code param arg = .ok l) ↔ code.checkArg param arg = .ok () := by
  cases hk : param.kind with
  | int signed hex | pointer element | struct group element =>
    cases arg <;> simp [ofArg, Code.checkArg, hk]
  | text =>
    cases arg with
    | expr value => simp [ofArg, Code.checkArg, hk]
    | list items =>
      by_cases hfits : items.length ≤ param.length
      · simp [ofArg, Code.checkArg, hk, hfits, Nat.not_lt.2 hfits]
      · simp [ofArg, Code.checkArg, hk, hfits, Nat.not_le.1 hfits]
    | text content =>
      -- Both count the bytes of the text, each in its own way.
      by_cases hlong : param.length < content.utf8ByteSize
      · simp [ofArg, Code.checkArg, hk, Encoding.text, Utf8.length_encode, hlong]
      · simp [ofArg, Code.checkArg, hk, Encoding.text, Utf8.length_encode, hlong]
  | array count signed hex =>
    cases arg with
    | expr value | text content => simp [ofArg, Code.checkArg, hk]
    | list items =>
      by_cases hcount : items.length = count
      · simp [ofArg, Code.checkArg, hk, hcount]
      · simp [ofArg, Code.checkArg, hk, hcount]

theorem exists_ofArgs_iff (code : Code) (pairs : List (Param × Arg)) :
    (∃ l, ofArgs code pairs = .ok l) ↔
      ∀ pair ∈ pairs, code.checkArg pair.1 pair.2 = .ok () := by
  induction pairs with
  | nil => simp [ofArgs]
  | cons pair pairs ih =>
    obtain ⟨param, arg⟩ := pair
    rw [List.forall_mem_cons, ← exists_ofArg_iff, ← ih, ofArgs]
    cases ofArg code param arg with
    | error fault => simp
    | ok first => cases ofArgs code pairs <;> simp [Except.map]

/-- The use of a code has parts if and only if the arguments suit the parameters. -/
theorem exists_ofStatement_iff {registry : Registry} {index : Nat} {code : Code}
    (hat : registry.at? index = some code) {args : List Arg}
    (hlength : args.length = code.params.length) (size : Nat) :
    (∃ l, ofStatement (.code index args) size registry = .ok l) ↔
      code.checkArgs args = .ok () := by
  rw [checkArgs_eq_ok_iff, ← exists_ofArgs_iff]
  cases hargs : ofArgs code (code.params.zip args) <;>
    simp [ofStatement, hat, hargs, hlength, Except.map]

end Layout

/-! ## Writing with a check of the range -/

namespace Image

/-- Writes bytes from a place on, if there is room for all of them. -/
def overwrite? (image : Image) (start : Nat) (bytes : List UInt8) : Option Image :=
  if start + bytes.length ≤ image.size then some (image.overwrite start bytes) else none

theorem overwrite?_of_le {image : Image} {start : Nat} {bytes : List UInt8}
    (h : start + bytes.length ≤ image.size) :
    image.overwrite? start bytes = some (image.overwrite start bytes) := if_pos h

/-- Writes that find room in every image of a size find it one after the other. -/
theorem foldlM_eq_some {α : Type} {write : Image → α → Image} {write? : Image → α → Option Image}
    {size : Nat} {items : List α}
    (hsize : ∀ (image : Image) a, (write image a).size = image.size)
    (hroom : ∀ a ∈ items, ∀ image : Image, image.size = size → write? image a = some (write image a))
    {image : Image} (h : image.size = size) :
    items.foldlM write? image = some (items.foldl write image) ∧
      (items.foldl write image).size = size := by
  induction items generalizing image with
  | nil => exact ⟨rfl, h⟩
  | cons a items ih =>
    obtain ⟨hfirst, hrest⟩ := List.forall_mem_cons.1 hroom
    rw [List.foldlM_cons, hfirst image h]
    exact ih hrest ((hsize image a).trans h)

end Image

namespace Patch

/-- The bytes of a statement of a size, if all patches lie within them. -/
def render? (size : Nat) (patches : List Patch) : Option (List UInt8) :=
  (patches.foldlM (fun (bytes : Image) p => bytes.overwrite? p.start p.bytes)
    (Array.replicate size 0)).map Array.toList

theorem render?_eq {size : Nat} {patches : List Patch}
    (h : ∀ p ∈ patches, p.interval.stop ≤ size) : render? size patches = some (render size patches) := by
  have hwrites := (Image.foldlM_eq_some
    (fun bytes (p : Patch) => Image.size_overwrite bytes p.start p.bytes)
    (fun p hp bytes hbytes => Image.overwrite?_of_le (hbytes ▸ h p hp))
    (Array.size_replicate : (Array.replicate size (0 : UInt8)).size = size)).1
  rw [render?, hwrites]
  rfl

end Patch

namespace Assembly

/-- The image after an attempt to write bytes, if nothing is out of range. -/
def commit? (protections : List Protection) (span : Span) (patches : List Patch) (image : Image) :
    Option Image := do
  let bytes ← Patch.render? span.size patches
  match checkWrite span image.size protections with
  | .ok () => image.overwrite? span.offset.toNat bytes
  | .error _ => some image

theorem commit?_eq (protections : List Protection) {span : Span} {patches : List Patch}
    (h : ∀ p ∈ patches, p.interval.stop ≤ span.size) (image : Image) :
    commit? protections span patches image = some (commit protections span patches image) := by
  rw [commit?, commit, Patch.render?_eq h, Option.bind_eq_bind, Option.bind_some]
  cases hcheck : checkWrite span image.size protections with
  | error fault => rfl
  | ok _ =>
    refine Image.overwrite?_of_le ?_
    rw [Patch.length_render]
    exact (of_checkWrite hcheck).1

namespace Item

variable (context : Context) (symbols : Symbols) (protections : List Protection)

/-- The image after the second pass of the two-pass engine over an item, if nothing is out of range. -/
def write? (image : Image) (item : Item) : Option Image :=
  match item.piece with
  | none => some image
  | some piece => commit? protections piece.span (piece.layout.fixed ++
      PlacedField.patches symbols piece.span.offset context.pointerBase piece.fields) image

/-- The image after the one-pass engine writes the chunk of an item, if nothing is out of range. -/
def writeChunk? (image : Image) (item : Item) : Option Image :=
  match item.chunk? context with
  | none => some image
  | some chunk => commit? protections chunk.span (chunk.patches ++
      PlacedField.patches symbols chunk.span.offset context.pointerBase chunk.fields) image

variable {context symbols}

/-- The patches of a statement lie within its bytes. -/
theorem PieceOf.patches_within {item : Item} {piece : Piece} (h : PieceOf context item piece)
    {patch : Patch} (hpatch : patch ∈ piece.layout.fixed ++
      PlacedField.patches symbols piece.span.offset context.pointerBase piece.fields) :
    patch.interval.stop ≤ piece.span.size := by
  have hsub := PlacedField.map_interval_patches symbols piece.span.offset context.pointerBase
    piece.fields
  rw [h.fields] at hsub
  apply h.neat.within
  apply (hsub.append_left (piece.layout.fixed.map Patch.interval)).subset
  rw [← List.map_append]
  exact List.mem_map_of_mem hpatch

theorem Sound.write?_eq {item : Item} (h : item.Sound context symbols) (image : Image) :
    item.write? context symbols protections image =
      some (item.write context symbols protections image) := by
  cases hp : item.piece with
  | none => simp only [write?, write, hp]
  | some piece =>
    simp only [write?, write, hp]
    exact commit?_eq protections (fun _ => (h.pieceOf hp).patches_within) image

theorem Sound.writeChunk?_eq {item : Item} (h : item.Sound context symbols) (image : Image) :
    item.writeChunk? context symbols protections image =
      some (item.writeChunk context symbols protections image) := by
  cases hp : item.piece with
  | none => simp only [writeChunk?, writeChunk, chunk?, hp, Option.map_none]
  | some piece =>
    simp only [writeChunk?, writeChunk, chunk?, hp, Option.map_some]
    refine commit?_eq protections (fun patch hpatch => ?_) image
    -- The same patches in another order.
    rw [← (h.patches_perm hp).mem_iff] at hpatch
    exact (h.pieceOf hp).patches_within hpatch

theorem size_writeChunk (image : Image) (item : Item) :
    (item.writeChunk context symbols protections image).size = image.size := by
  unfold writeChunk
  split
  · rfl
  · exact size_commit ..

end Item

namespace InlineBlock

/-- The image after an attempt to write a block, if nothing is out of range. -/
def write? (symbols : Symbols) (image : Image) (block : InlineBlock) : Option Image :=
  match block.offset with
  | none => some image
  | some offset =>
    match block.data.inlineBytes block.element offset symbols with
    | .ok bytes => image.overwrite? offset.toNat bytes
    | .error _ => some image

theorem write?_eq {symbols : Symbols} {block : InlineBlock} {size : Nat}
    (h : ∀ offset, block.offset = some offset → offset.toNat + block.size ≤ size) {image : Image}
    (himage : image.size = size) :
    block.write? symbols image = some (block.write symbols image) := by
  unfold write? write
  cases hoffset : block.offset with
  | none => rfl
  | some offset =>
    cases hbytes : block.data.inlineBytes block.element offset symbols with
    | error fault => simp only [hbytes]
    | ok bytes =>
      have hin := h offset hoffset
      simp only [hbytes]
      apply Image.overwrite?_of_le
      rw [Arg.length_inlineBytes hbytes, himage]
      exact hin

end InlineBlock

namespace Course

variable (c : Course) (context : Context)

/-- The image that the two-pass engine writes, if nothing is out of range. -/
def twoPassImage? (image : Image) : Option Image := do
  let written ← c.items.foldlM (Item.write? context c.symbols c.protections) image
  c.blocks.foldlM (InlineBlock.write? c.symbols) written

/-- The image that the one-pass engine writes, if nothing is out of range. -/
def onePassImage? (image : Image) : Option Image := do
  let written ← c.items.foldlM (Item.writeChunk? context c.symbols c.protections) image
  c.blocks.foldlM (InlineBlock.write? c.symbols) written

variable {c context} {program : Program} {image : Image}

/-- Data that has a place lies in the image. -/
theorem stop_le_of_mem_blocks (hr : context.registry.WellFormed)
    (hs : ∀ st ∈ program, st.value.Sound context.registry) (hsize : image.size < 2 ^ 32)
    {b : InlineBlock} (hb : b ∈ (along (fun p => p.slot.span) program context image).blocks)
    {offset : UInt32} (hoffset : b.offset = some offset) : offset.toNat + b.size ≤ image.size := by
  -- There is some data, and its last byte was a free byte of the image.
  have hpos : 1 ≤ b.size := (inlined_of_mem_blocks hr hs hb).inlineSize_pos
  have hlast : b.interval.contains (offset.toNat + b.size - 1) = true :=
    InlineBlock.contains_iff.2 ⟨offset, hoffset, by omega, by omega⟩
  have hfree := ((blocks_free program context image (by omega)).2 b hb _ hlast).2.1
  obtain ⟨hin, _⟩ := Array.getElem?_eq_some_iff.1 hfree
  omega

/-- Statements that find room, and then data that lies in the image, are all written. -/
theorem foldlM_items_blocks {write : Image → Item → Image} {write? : Image → Item → Option Image}
    {items : List Item} {blocks : List InlineBlock} (symbols : Symbols)
    (hsize : ∀ image item, (write image item).size = image.size)
    (hitems : ∀ item ∈ items, ∀ image, write? image item = some (write image item))
    (hblocks : ∀ b ∈ blocks, ∀ offset, b.offset = some offset →
      offset.toNat + b.size ≤ image.size) :
    (items.foldlM write? image >>= blocks.foldlM (InlineBlock.write? symbols)) =
      some (blocks.foldl (InlineBlock.write symbols) (items.foldl write image)) := by
  obtain ⟨hwritten, hsame⟩ :=
    Image.foldlM_eq_some hsize (fun item hitem image _ => hitems item hitem image)
      (rfl : image.size = image.size)
  rw [hwritten, Option.bind_eq_bind, Option.bind_some]
  exact (Image.foldlM_eq_some (InlineBlock.size_write symbols)
    (fun b hb _ => InlineBlock.write?_eq (hblocks b hb)) hsame).1

end Course

end Assembly

namespace Engine

open Assembly

/-- The image that an engine writes, if nothing is out of range. -/
def written? (engine : Engine) (program : Program) (context : Assembly.Context) (image : Image) :
    Option Image :=
  match engine with
  | .twoPass => (twoPass.course program context image).twoPassImage? context image
  | .onePass => (onePass.course program context image).onePassImage? context image

/-- Nothing that an engine writes for a sound program is out of range. -/
theorem written?_eq {program : Program} {context : Assembly.Context} {image : Image}
    (hr : context.registry.WellFormed) (hs : ∀ st ∈ program, st.value.Sound context.registry)
    (hsize : image.size < 2 ^ 32) (engine : Engine) :
    engine.written? program context image = some (engine.written program context image) := by
  have hsound : (twoPass.course program context image).Sound context :=
    Course.sound_along _ image hr hs
  have hblocks : ∀ b ∈ (twoPass.course program context image).blocks, ∀ offset,
      b.offset = some offset → offset.toNat + b.size ≤ image.size :=
    fun b hb offset hoffset => Course.stop_le_of_mem_blocks hr hs hsize hb hoffset
  cases engine with
  | twoPass =>
    exact Course.foldlM_items_blocks _ (Item.size_write context _ _)
      (fun item hitem => (hsound.items item hitem).write?_eq _) hblocks
  | onePass =>
    rw [written?, written, course_eq image hr hs onePass]
    exact Course.foldlM_items_blocks _ (Item.size_writeChunk _)
      (fun item hitem => (hsound.items item hitem).writeChunk?_eq _) hblocks

end Engine

end CartScript
