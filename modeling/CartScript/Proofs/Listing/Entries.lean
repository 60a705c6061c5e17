import CartScript.Proofs.Listing.Decoding
import Mathlib.Data.List.Flatten

/-!
# The entries of a listing

How many lines a listing has, which offsets it names, and where its lines stand.
-/

namespace CartScript.Listing

/-! ## The offsets of a listing -/

/-- The offsets of a block that may have labels. -/
def Block.named (b : Block) : List UInt32 := b.start :: b.inner

/-- What a finished decoding has found: blocks of codes that show what stands in the image.  The
    offsets of blocks and of the codes in them lie in the image and differ from each other, and no
    others are labelled. -/
structure Found (t : Target) (labels : List UInt32) (blocks : List Block) : Prop where
  chains : ∀ b ∈ blocks, Chain b.start b.lines
  lines : ∀ b ∈ blocks, ∀ line ∈ b.lines, line.Shows t labels
  nodup : (blocks.flatMap Block.named).Nodup
  inside : ∀ offset ∈ blocks.flatMap Block.named, offset.toNat < t.image.size
  labels : labels ⊆ blocks.flatMap Block.named

theorem Found.nil (t : Target) : Found t [] [] :=
  ⟨by simp, by simp, by simp, by simp, by simp⟩

theorem State.Decoded.found {c : Context} {s : State} (h : s.Decoded c) (hqueue : s.queue = []) :
    Found c.toTarget s.labels s.blocks.toList := by
  have hstarts : (s.blocks.toList.map Block.start).Perm s.queued := by
    have hperm := h.known.perm
    rwa [hqueue, List.map_nil, List.append_nil] at hperm
  -- An empty queue: every offset that was ever queued has started a block.
  have hsplit : (s.blocks.toList.flatMap Block.inner ++ s.queued).Perm
      (s.blocks.toList.flatMap Block.named) := by
    refine (hstarts.symm.append_left _).trans (List.perm_append_comm.trans ?_)
    rw [List.map_eq_flatMap]
    exact List.flatMap_append_perm ..
  exact ⟨h.chains, h.lines, hsplit.nodup_iff.1 h.known.nodup,
    fun offset ho => h.known.inside offset (hsplit.mem_iff.2 ho),
    fun offset ho => hsplit.mem_iff.1 (h.known.labels offset ho)⟩

variable {blocks : List Block} {labels : List UInt32} {lines : List Line} {t : Target}
  {cursor : UInt32} {b : Block} {e : Entry}

/-- A listing has no more offsets than the image has bytes. -/
theorem Found.length_le (h : Found t labels blocks) :
    (blocks.flatMap Block.named).length ≤ t.image.size :=
  length_le_of_distinct UInt32.toNat (h.nodup.imp fun hne heq => hne (UInt32.toNat_inj.1 heq))
    h.inside

/-- The offsets of lines in a chain go up. -/
theorem Chain.le (h : Chain cursor lines) : ∀ line ∈ lines, cursor.toNat ≤ line.offset.toNat := by
  induction h with
  | nil | last line => simp
  | @cons line lines hlt h ih =>
    refine List.forall_mem_cons.2 ⟨Nat.le_refl _, fun other hother => ?_⟩
    have := ih other hother
    omega

/-- A block has a line for its start, and one for each of its inner offsets. -/
theorem Chain.length_le {start : UInt32} (h : Chain start lines) :
    lines.length ≤ (innerOffsets start lines).length + 1 := by
  cases h with
  | nil | last line => simp
  | @cons line lines hlt h =>
    -- The offsets go up, so none of the later lines is at the start again.
    have hinner : innerOffsets line.offset lines = lines.map Line.offset := by
      refine List.filter_eq_self.2 fun offset hoffset => ?_
      obtain ⟨other, hother, rfl⟩ := List.mem_map.1 hoffset
      have := h.le other hother
      refine decide_eq_true fun heq => ?_
      rw [heq] at this
      omega
    have hcons : innerOffsets line.offset (line :: lines) = innerOffsets line.offset lines :=
      List.filter_cons_of_neg (by simp)
    have hlength : (innerOffsets line.offset (line :: lines)).length = lines.length := by
      rw [hcons, hinner, List.length_map]
    rw [List.length_cons]
    omega

theorem Line.length_entries_le (labels : List UInt32) (start : UInt32) (line : Line) :
    (line.entries labels start).length ≤ 2 := by
  unfold Line.entries
  split <;> simp

theorem Block.length_entries_le (labels : List UInt32) (h : Chain b.start b.lines) :
    (b.entries labels).length + 1 ≤ 5 * b.named.length := by
  have hlines : (b.lines.flatMap (Line.entries labels b.start)).length ≤ 2 * b.lines.length := by
    induction b.lines with
    | nil => simp
    | cons line lines ih =>
      have := Line.length_entries_le labels b.start line
      rw [List.flatMap_cons, List.length_append, List.length_cons]
      omega
  have := h.length_le
  simp only [Block.entries, Block.named, Block.inner, List.length_cons]
  omega

/-- A listing consists of its blocks, each with an empty line before it, but for the first of these
    lines. -/
theorem entries_eq_tail (labels : List UInt32) (blocks : List Block) :
    entries labels blocks = (blocks.flatMap fun b => .blank :: b.entries labels).tail := by
  cases blocks with
  | nil => rfl
  | cons b blocks =>
    rw [List.flatMap_cons, List.cons_append, List.tail_cons, entries, List.map_cons]
    induction blocks generalizing b with
    | nil => rw [List.map_nil, List.intercalate_singleton, List.flatMap_nil, List.append_nil]
    | cons other blocks ih =>
      rw [List.map_cons, List.intercalate_cons_cons, ih, List.flatMap_cons, List.append_assoc]
      rfl

/-- A listing has at most five lines for each offset in its blocks. -/
theorem length_entries_le (labels : List UInt32) (h : ∀ b ∈ blocks, Chain b.start b.lines) :
    (entries labels blocks).length ≤ 5 * (blocks.flatMap Block.named).length := by
  have hall : (blocks.flatMap fun b => Entry.blank :: b.entries labels).length ≤
      5 * (blocks.flatMap Block.named).length := by
    induction blocks with
    | nil => simp
    | cons b blocks ih =>
      obtain ⟨hb, hrest⟩ := List.forall_mem_cons.1 h
      have hfirst := Block.length_entries_le labels hb
      have hlater := ih hrest
      rw [List.flatMap_cons, List.length_append, List.flatMap_cons, List.length_append,
        List.length_cons]
      omega
  rw [entries_eq_tail, List.length_tail]
  omega

/-- Where the entries of a listing come from. -/
theorem mem_entries (h : e ∈ entries labels blocks) :
    e = .blank ∨ ∃ b ∈ blocks, e ∈ b.entries labels := by
  rw [entries_eq_tail] at h
  obtain ⟨b, hb, he⟩ := List.mem_flatMap.1 (List.mem_of_mem_tail h)
  exact (List.mem_cons.1 he).imp_right fun he => ⟨b, hb, he⟩

/-- The lines of the entries of a block. -/
theorem mem_block_entries (h : e ∈ b.entries labels) :
    e = .org b.start ∨ (∃ offset, e = .label offset) ∨ ∃ line ∈ b.lines, e = .code line := by
  rcases List.mem_cons.1 h with rfl | h
  · exact .inl rfl
  · rcases List.mem_cons.1 h with rfl | h
    · exact .inr (.inl ⟨_, rfl⟩)
    · obtain ⟨line, hline, he⟩ := List.mem_flatMap.1 h
      unfold Line.entries at he
      split at he
      · rcases List.mem_cons.1 he with rfl | he
        · exact .inr (.inl ⟨_, rfl⟩)
        · exact .inr (.inr ⟨line, hline, List.mem_singleton.1 he⟩)
      · exact .inr (.inr ⟨line, hline, List.mem_singleton.1 he⟩)

/-! ## The labels of a listing -/

/-- The offset that an entry names. -/
def Entry.named : Entry → List UInt32
  | .label offset => [offset]
  | _ => []

/-- The offsets named in a block: its start, and those inside that have labels. -/
theorem Block.named_entries (labels : List UInt32) (b : Block) :
    (b.entries labels).flatMap Entry.named = b.start :: b.inner.filter (labels.contains ·) := by
  have hlines : ∀ lines : List Line,
      (lines.flatMap (Line.entries labels b.start)).flatMap Entry.named =
        (innerOffsets b.start lines).filter (labels.contains ·) := by
    intro lines
    induction lines with
    | nil => rfl
    | cons line lines ih =>
      rw [List.flatMap_cons, List.flatMap_append, ih, innerOffsets, innerOffsets, List.map_cons,
        List.filter_cons]
      -- A line at the start has its label from the block, any other one only if it is labelled.
      by_cases hstart : line.offset = b.start
      · simp [Line.entries, hstart, Entry.named]
      · by_cases hlabel : line.offset ∈ labels
        · simp [Line.entries, hstart, hlabel, Entry.named]
        · simp [Line.entries, hstart, hlabel, Entry.named]
  rw [Block.entries, List.flatMap_cons, List.flatMap_cons, hlines]
  rfl

/-- The offsets named in a listing. -/
theorem named_entries (labels : List UInt32) (blocks : List Block) :
    (entries labels blocks).flatMap Entry.named =
      blocks.flatMap fun b => b.start :: b.inner.filter (labels.contains ·) := by
  have htail : ∀ es : List Entry, (Entry.blank :: es).tail.flatMap Entry.named =
      (Entry.blank :: es).flatMap Entry.named := fun es => rfl
  have hall : (blocks.flatMap fun b => Entry.blank :: b.entries labels).flatMap Entry.named =
      blocks.flatMap fun b => b.start :: b.inner.filter (labels.contains ·) := by
    rw [List.flatMap_assoc]
    refine List.flatMap_congr fun b _ => ?_
    rw [List.flatMap_cons, Block.named_entries]
    rfl
  rw [entries_eq_tail, ← hall]
  cases blocks with
  | nil => rfl
  | cons b blocks => exact htail _

/-- The offsets that a listing names differ from each other. -/
theorem Found.nodup_entries (h : Found t labels blocks) :
    ((entries labels blocks).flatMap Entry.named).Nodup := by
  rw [named_entries]
  -- The named offsets are some of those that the decoding found, in the same order.
  exact h.nodup.sublist (List.Sublist.flatMap_right _ fun b _ => List.filter_sublist.cons_cons _)

/-- A listing names every labelled offset. -/
theorem Found.mem_named (h : Found t labels blocks) {offset : UInt32} (ho : offset ∈ labels) :
    offset ∈ (entries labels blocks).flatMap Entry.named := by
  obtain ⟨b, hb, hmem⟩ := List.mem_flatMap.1 (h.labels ho)
  rw [named_entries]
  refine List.mem_flatMap.2 ⟨b, hb, ?_⟩
  rcases List.mem_cons.1 hmem with rfl | hinner
  · exact .head _
  · exact .tail _ (List.mem_filter.2 ⟨hinner, by simpa using ho⟩)

/-! ## The places of a listing -/

/-- Entries that stand where they were decoded, when they are walked through from an offset on. -/
def Placed : UInt32 → List Entry → Prop
  | _, [] => True
  | cursor, .blank :: entries => Placed cursor entries
  | _, .org offset :: entries => Placed offset entries
  | cursor, .label offset :: entries => cursor = offset ∧ Placed cursor entries
  | cursor, .code line :: entries =>
    cursor = line.offset ∧ Placed (codeEnd line.offset line.code) entries

theorem Chain.placed (h : Chain cursor lines) (labels : List UInt32) (start : UInt32)
    {rest : List Entry} (hrest : ∀ c, Placed c rest) :
    Placed cursor (lines.flatMap (Line.entries labels start) ++ rest) := by
  -- A label does not move the cursor, and a code moves it to the end of the code.
  have hline : ∀ (line : Line) (entries : List Entry),
      Placed (codeEnd line.offset line.code) entries →
        Placed line.offset (line.entries labels start ++ entries) := by
    intro line entries hentries
    unfold Line.entries
    split
    · exact ⟨rfl, rfl, hentries⟩
    · exact ⟨rfl, hentries⟩
  induction h with
  | nil => exact hrest _
  | last line =>
    rw [List.flatMap_singleton]
    exact hline line rest (hrest _)
  | @cons line lines hlt h ih =>
    rw [List.flatMap_cons, List.append_assoc]
    exact hline line _ ih

/-- The lines of a listing stand where they were decoded. -/
theorem placed_entries (labels : List UInt32) (h : ∀ b ∈ blocks, Chain b.start b.lines)
    (cursor : UInt32) : Placed cursor (entries labels blocks) := by
  -- Where the cursor was before does not matter to a block, which sets it first.
  have hall : ∀ c, Placed c (blocks.flatMap fun b => Entry.blank :: b.entries labels) := by
    induction blocks with
    | nil => exact fun _ => trivial
    | cons b blocks ih =>
      obtain ⟨hb, hrest⟩ := List.forall_mem_cons.1 h
      exact fun _ => ⟨rfl, hb.placed labels b.start (ih hrest)⟩
  rw [entries_eq_tail]
  cases blocks with
  | nil => trivial
  | cons b blocks => exact hall cursor

end CartScript.Listing
