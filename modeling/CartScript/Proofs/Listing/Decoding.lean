import CartScript.Proofs.Listing.Operands

/-!
# What decoding finds

A decoding goes through a queue of blocks.  No offset is queued twice, no code is decoded twice, and
every label names a block or a code in one.
-/

namespace CartScript.Listing

/-- There are no more distinct numbers than the bound that they are below. -/
theorem length_le_of_distinct {α : Type} {l : List α} (f : α → Nat) {bound : Nat}
    (hdistinct : l.Pairwise fun a b => f a ≠ f b) (hlt : ∀ a ∈ l, f a < bound) :
    l.length ≤ bound := by
  have hsub : l.map f ⊆ List.range bound := by
    intro n hn
    obtain ⟨a, ha, rfl⟩ := List.mem_map.1 hn
    exact List.mem_range.2 (hlt a ha)
  have hle := (List.subperm_of_subset (List.pairwise_map.2 hdistinct) hsub).length_le
  rwa [List.length_map, List.length_range] at hle

/-! ## Matches -/

namespace Target

variable {t : Target} {offset : UInt32} {group : Option String} {code : Code} {bytes : List UInt8}

theorem mem_of_highest? {codes : List Code} (h : highest? codes = some code) : code ∈ codes := by
  induction codes generalizing code with
  | nil => simp [highest?] at h
  | cons first codes ih =>
    simp only [highest?] at h
    split at h
    · obtain rfl := Option.some.inj h
      exact .head _
    · rename_i other hother
      split at h
      · exact .tail _ (ih (h ▸ hother))
      · obtain rfl := Option.some.inj h
        exact .head _

/-- The code at an offset may stand there. -/
theorem of_best? (h : t.best? offset group = some code) :
    code ∈ t.codes ∧ t.accepts offset group code = true :=
  List.mem_filter.1 (mem_of_highest? h)

theorem of_accepts (h : t.accepts offset group code = true) :
    offset.toNat % max code.align.toNat 1 = 0 ∧
      ∃ bytes, t.image.read? offset code.length = some bytes ∧ t.fits code bytes = true := by
  simp only [accepts, Bool.and_eq_true, beq_iff_eq, Option.any_eq_true] at h
  exact ⟨h.1.2, h.2⟩

/-- Bytes that are an instance of a code. -/
theorem of_fits (h : t.fits code bytes = true) :
    bytes.take code.idLength = code.idBytes ∧
      (∀ k, bytes[k]? ≠ some 0 → k < bytes.length → code.covers k = true) ∧
      ∀ p ∈ code.params, p.kind.isStruct = true →
        t.holds (Encoding.readUnsigned (paramBytes p bytes)) = true := by
  simp only [fits, Code.matchesId, Bool.and_eq_true, beq_iff_eq, List.all_eq_true, Bool.or_eq_true,
    List.mem_filter, and_imp] at h
  obtain ⟨⟨⟨_, hid⟩, hzeros⟩, hstructs⟩ := h
  refine ⟨hid, fun k hne hk => ?_, hstructs⟩
  have hpair : (bytes[k], k) ∈ bytes.zipIdx := List.mem_zipIdx_iff_getElem?.2 (by simp [hk])
  -- A byte that no part of the code covers must be zero.
  refine (hzeros _ hpair).resolve_right fun hzero => hne ?_
  rw [List.getElem?_eq_getElem hk]
  exact congrArg some hzero

/-- The address of a sub-structure is nothing, or that of an offset in the image. -/
theorem of_holds {raw : Nat} (h : t.holds raw = true) :
    raw = 0 ∨ ∃ offset, Encoding.unpointer? raw t.pointerBase = some offset ∧
      offset.toNat < t.image.size := by
  simpa [holds, Option.any_eq_true] using h

end Target

/-- Nothing is no address but that of offset zero. -/
theorem offset_of_zero {base offset : UInt32} (h : Encoding.unpointer? 0 base = some offset) :
    offset = 0 := by
  unfold Encoding.unpointer? at h
  split at h
  · rw [← Option.some.inj h, Nat.zero_sub]
    rfl
  · simp at h

/-! ## Offsets that a decoding came across -/

namespace State

/-- What a decoding knows of offsets: the blocks started or queued are those ever queued, no code in
    a block is the start of one, and no offset is labelled but these. -/
structure Known (image : Image) (starts inner : List UInt32) (s : State) : Prop where
  perm : (starts ++ s.queue.map Task.offset).Perm s.queued
  nodup : (inner ++ s.queued).Nodup
  inside : ∀ offset ∈ inner ++ s.queued, offset.toNat < image.size
  decoded : ∀ code ∈ s.decoded, code.1 ∈ inner ++ s.queued
  isDecoded : ∀ offset ∈ inner, s.isDecoded offset = true
  labels : ∀ offset ∈ s.labels, offset ∈ inner ++ s.queued

/-- A decoding that goes on within a block. -/
structure Grows (s t : State) : Prop where
  labels : s.labels ⊆ t.labels
  queued : s.queued ⊆ t.queued
  blocks : t.blocks = s.blocks

theorem Grows.refl (s : State) : s.Grows s := ⟨List.Subset.refl _, List.Subset.refl _, rfl⟩

theorem Grows.trans {s t u : State} (h : s.Grows t) (h' : t.Grows u) : s.Grows u :=
  ⟨List.Subset.trans h.labels h'.labels, List.Subset.trans h.queued h'.queued,
    h'.blocks.trans h.blocks⟩

variable {image : Image} {starts inner : List UInt32} {s : State}

variable {offset : UInt32}

theorem isDecoded_iff : s.isDecoded offset = true ↔ ∃ code ∈ s.decoded, code.1 = offset := by
  simp [isDecoded, List.any_eq_true]

theorem isQueued_iff : s.isQueued offset = true ↔ offset ∈ s.queued := by
  simp [isQueued]

theorem Known.of_perm {others : List UInt32} (h : s.Known image starts inner)
    (hperm : inner.Perm others) : s.Known image starts others where
  perm := h.perm
  nodup := (hperm.append_right _).nodup_iff.1 h.nodup
  inside offset ho := h.inside offset ((hperm.append_right _).mem_iff.2 ho)
  decoded code hc := (hperm.append_right _).mem_iff.1 (h.decoded code hc)
  isDecoded offset ho := h.isDecoded offset (hperm.mem_iff.2 ho)
  labels offset ho := (hperm.append_right _).mem_iff.1 (h.labels offset ho)

/-- An offset that is decoded or queued is known. -/
theorem Known.mem_of_isDecoded (h : s.Known image starts inner)
    (hoffset : (s.isDecoded offset || s.isQueued offset) = true) : offset ∈ inner ++ s.queued := by
  rcases Bool.or_eq_true_iff.1 hoffset with hdecoded | hqueued
  · obtain ⟨code, hcode, rfl⟩ := isDecoded_iff.1 hdecoded
    exact h.decoded code hcode
  · exact List.mem_append_right _ (isQueued_iff.1 hqueued)

/-- An offset that is neither decoded nor queued is new. -/
theorem Known.not_mem (h : s.Known image starts inner)
    (hoffset : (s.isDecoded offset || s.isQueued offset) = false) : offset ∉ inner ++ s.queued := by
  obtain ⟨hdecoded, hqueued⟩ := Bool.or_eq_false_iff.1 hoffset
  intro hmem
  rcases List.mem_append.1 hmem with hinner | hmem
  · rw [h.isDecoded offset hinner] at hdecoded
    simp at hdecoded
  · rw [isQueued_iff.2 hmem] at hqueued
    simp at hqueued

/-- A known offset may be labelled. -/
theorem Known.label (h : s.Known image starts inner) (hoffset : offset ∈ inner ++ s.queued)
    {labels : List UInt32} (hlabels : ∀ o ∈ labels, o = offset ∨ o ∈ s.labels) :
    Known image starts inner { s with labels } :=
  { h with
    labels := by
      intro o ho
      rcases hlabels o ho with rfl | ho
      · exact hoffset
      · exact h.labels o ho }

/-- A new offset may be queued. -/
theorem Known.queue (h : s.Known image starts inner) (hin : offset.toNat < image.size)
    (hnew : offset ∉ inner ++ s.queued) (group : Option String) :
    Known image starts inner
      { s with queue := s.queue ++ [⟨offset, group⟩], queued := offset :: s.queued } := by
  have hmem : ∀ o, o ∈ inner ++ s.queued → o ∈ inner ++ offset :: s.queued := by
    intro o ho
    rw [List.mem_append] at ho ⊢
    exact ho.imp_right (List.mem_cons_of_mem _)
  refine ⟨?_, ?_, ?_, fun code hcode => hmem _ (h.decoded code hcode), h.isDecoded,
    fun o ho => hmem o (h.labels o ho)⟩
  · rw [List.map_append, ← List.append_assoc, List.map_singleton]
    exact (List.perm_append_singleton _ _).trans (h.perm.cons _)
  · exact List.perm_middle.nodup_iff.2 (List.nodup_cons.2 ⟨hnew, h.nodup⟩)
  · intro o ho
    rcases List.mem_cons.1 (List.perm_middle.mem_iff.1 ho) with rfl | ho
    · exact hin
    · exact h.inside o ho

/-- What following an offset does: the offset is labelled, unless it has its label already, and queued
    unless it is decoded or queued. -/
theorem follow_eq (s : State) (offset : UInt32) (group : String) :
    ∃ labels : List UInt32, offset ∈ labels ∧ (∀ o ∈ labels, o = offset ∨ o ∈ s.labels) ∧
      s.labels ⊆ labels ∧
      s.follow offset group =
        if s.isDecoded offset || s.isQueued offset then { s with labels }
        else { s with
          labels, queue := s.queue ++ [⟨offset, some group⟩], queued := offset :: s.queued } := by
  by_cases hlabelled : offset ∈ s.labels
  · exact ⟨s.labels, hlabelled, fun o ho => .inr ho, List.Subset.refl _,
      by simp [State.follow, hlabelled]⟩
  · refine ⟨offset :: s.labels, .head _, fun o ho => List.mem_cons.1 ho,
      List.subset_cons_self .., ?_⟩
    simp only [State.follow, List.contains_eq_mem, hlabelled, decide_false, Bool.false_eq_true,
      if_false]
    rfl

/-- An offset that is followed is labelled, and queued unless it is known. -/
theorem Known.follow (h : s.Known image starts inner) (hin : offset.toNat < image.size)
    (group : String) :
    (s.follow offset group).Known image starts inner ∧ s.Grows (s.follow offset group) ∧
      offset ∈ (s.follow offset group).labels := by
  obtain ⟨labels, hlabelled, hmem, hsub, hfollow⟩ := s.follow_eq offset group
  rw [hfollow]
  split
  · -- Known: only the label is added.
    rename_i hknown
    exact ⟨h.label (h.mem_of_isDecoded hknown) hmem, ⟨hsub, List.Subset.refl _, rfl⟩, hlabelled⟩
  · -- New: it is queued, so that there will be a block at the label.
    rename_i hnew
    have hnot := h.not_mem (Bool.eq_false_iff.2 hnew)
    have hqueue := h.queue hin hnot (some group)
    exact ⟨hqueue.label (by simp) hmem, ⟨hsub, List.subset_cons_self .., rfl⟩, hlabelled⟩

/-- Nothing of it depends on the blocks and the log. -/
theorem Known.unseen (h : s.Known image starts inner) (blocks : Array Block) (log : Log) :
    Known image starts inner { s with blocks, log } :=
  ⟨h.perm, h.nodup, h.inside, h.decoded, h.isDecoded, h.labels⟩

/-! ## Operands of a code -/

variable {t : Target}

/-- An operand shows the bytes of its parameter, and the offset that it names is followed. -/
theorem Known.operand (h : s.Known t.image starts inner) (mode : Mode) {param : Param}
    {slice : List UInt8} (hproper : param.Proper) (hlength : slice.length = param.length)
    (hholds : param.kind.isStruct = true → t.holds (Encoding.readUnsigned slice) = true) :
    (s.operand mode t.pointerBase param slice).2.Known t.image starts inner ∧
      s.Grows (s.operand mode t.pointerBase param slice).2 ∧
      (s.operand mode t.pointerBase param slice).1.Shows t.pointerBase
        (s.operand mode t.pointerBase param slice).2.labels param slice := by
  have hplain : ∀ labels, (plainOperand param slice).Shows t.pointerBase labels param slice :=
    fun labels => Operand.shows_plainOperand t.pointerBase labels hproper hlength
  simp only [State.operand]
  split
  · rename_i group element offset hkind hoffset
    split
    · rename_i hfollow
      have hin : offset.toNat < t.image.size := by
        -- The code fits only if its addresses lie in the image or are nothing, and nothing is not
        -- followed.
        rcases Target.of_holds (hholds (by rw [hkind]; rfl)) with hzero | ⟨other, hother, hin⟩
        · exact absurd (offset_of_zero (hzero ▸ hoffset)) hfollow.1
        · rw [hoffset, Option.some.injEq] at hother
          exact hother ▸ hin
      obtain ⟨hknown, hgrows, hlabel⟩ := h.follow hin group
      exact ⟨hknown, hgrows, .label (by rw [hkind]; rfl) hoffset hfollow.1 hlabel⟩
    · exact ⟨h, .refl s, hplain _⟩
  · exact ⟨h, .refl s, hplain _⟩

/-- The operands of a code show its bytes. -/
theorem Known.operands (h : s.Known t.image starts inner) (mode : Mode) {params : List Param}
    {bytes : List UInt8} (hproper : ∀ p ∈ params, p.Proper)
    (hstop : ∀ p ∈ params, p.stop ≤ bytes.length)
    (hholds : ∀ p ∈ params, p.kind.isStruct = true →
      t.holds (Encoding.readUnsigned (paramBytes p bytes)) = true) :
    (State.operands mode t.pointerBase bytes params s).2.Known t.image starts inner ∧
      s.Grows (State.operands mode t.pointerBase bytes params s).2 ∧
      List.Forall₂ (fun param operand => Operand.Shows t.pointerBase
          (State.operands mode t.pointerBase bytes params s).2.labels param (paramBytes param bytes)
          operand)
        params (State.operands mode t.pointerBase bytes params s).1 := by
  induction params generalizing s with
  | nil => exact ⟨h, .refl s, .nil⟩
  | cons param params ih =>
    obtain ⟨hproper, hpropers⟩ := List.forall_mem_cons.1 hproper
    obtain ⟨hstop, hstops⟩ := List.forall_mem_cons.1 hstop
    obtain ⟨hholds, hholdss⟩ := List.forall_mem_cons.1 hholds
    have hlength : (paramBytes param bytes).length = param.length := length_paramBytes hstop
    obtain ⟨hknown, hgrows, hshows⟩ := h.operand mode hproper hlength hholds
    obtain ⟨hlast, hmore, hrest⟩ := ih hknown hpropers hstops hholdss
    -- Later operands only add labels, so this one still shows its bytes.
    exact ⟨hlast, hgrows.trans hmore, .cons (hshows.mono hmore.labels) hrest⟩

end State

/-! ## Lines of a block -/

/-- The bytes of a decoded code. -/
def Line.bytes (image : Image) (line : Line) : List UInt8 :=
  (image.read? line.offset line.code.length).getD []

/-- A decoded code that shows what stands at its offset. -/
structure Line.Shows (t : Target) (labels : List UInt32) (line : Line) : Prop where
  code : line.code ∈ t.codes
  accepts : ∃ group, t.accepts line.offset group line.code = true
  operands : List.Forall₂ (fun param operand =>
    Operand.Shows t.pointerBase labels param (paramBytes param (line.bytes t.image)) operand)
    line.code.params line.operands

theorem Line.Shows.mono {t : Target} {labels more : List UInt32} {line : Line}
    (h : line.Shows t labels) (hmore : labels ⊆ more) : line.Shows t more :=
  { h with operands := h.operands.imp fun _ _ hshows => hshows.mono hmore }

/-- Codes that stand one after the other from an offset on. -/
inductive Chain : UInt32 → List Line → Prop
  | nil (offset : UInt32) : Chain offset []
  | last (line : Line) : Chain line.offset [line]
  | cons {line : Line} {lines : List Line}
      (hlt : line.offset.toNat < (codeEnd line.offset line.code).toNat)
      (h : Chain (codeEnd line.offset line.code) lines) : Chain line.offset (line :: lines)

/-- The offsets of codes other than the first one of their block. -/
def innerOffsets (start : UInt32) (lines : List Line) : List UInt32 :=
  (lines.map Line.offset).filter (· ≠ start)

/-- The offsets of codes in a block other than its first one. -/
def Block.inner (b : Block) : List UInt32 := innerOffsets b.start b.lines

variable {c : Context} {s : State} {starts inner : List UInt32}

/-- A code at which a block does not end is the first one of the block, or new. -/
theorem State.Known.decode (h : s.Known c.image starts inner) {start cursor : UInt32}
    (hstart : start ∈ s.queued) (hgo : c.isKnownEnd s start cursor = false) (stop : UInt32) :
    State.Known c.image starts ([cursor].filter (· ≠ start) ++ inner)
      { s with decoded := (cursor, stop) :: s.decoded } := by
  have hdecoded : ∀ offset, s.isDecoded offset = true →
      State.isDecoded { s with decoded := (cursor, stop) :: s.decoded } offset = true := by
    intro offset ho
    simp only [State.isDecoded, List.any_cons] at ho ⊢
    rw [ho, Bool.or_true]
  simp only [Context.isKnownEnd, Bool.or_eq_false_iff, Bool.and_eq_false_iff, bne_eq_false_iff_eq,
    decide_eq_false_iff_not, Nat.not_le] at hgo
  obtain ⟨hnew, hin⟩ := hgo
  -- The first code of a block may be at an offset that is queued, namely its own.
  by_cases hfirst : cursor = start
  · subst hfirst
    simp only [ne_eq, not_true_eq_false, decide_false, List.filter_cons, List.filter_nil,
      Bool.false_eq_true, if_false, List.nil_append]
    refine ⟨h.perm, h.nodup, h.inside, ?_, fun offset ho => hdecoded offset (h.isDecoded offset ho),
      h.labels⟩
    exact List.forall_mem_cons.2 ⟨List.mem_append_right _ hstart, h.decoded⟩
  · have hnot := h.not_mem (Bool.or_eq_false_iff.2 (hnew.resolve_left hfirst))
    simp only [ne_eq, hfirst, not_false_eq_true, decide_true, List.filter_cons, List.filter_nil,
      if_true, List.singleton_append]
    refine ⟨h.perm, List.nodup_cons.2 ⟨hnot, h.nodup⟩, List.forall_mem_cons.2 ⟨hin, h.inside⟩,
      List.forall_mem_cons.2 ⟨.head _, fun code hcode =>
        .tail _ (h.decoded code hcode)⟩,
      List.forall_mem_cons.2 ⟨?_, fun offset ho => hdecoded offset (h.isDecoded offset ho)⟩,
      fun offset ho => .tail _ (h.labels offset ho)⟩
    simp [State.isDecoded]

namespace Context

/-- Decoding a code keeps what is known, and the code shows what stands there. -/
theorem decode_spec (hcodes : ∀ code ∈ c.codes, code.WellFormed) {start cursor : UInt32}
    {group : Option String} {code : Code} {line : Line} {next : State}
    (h : s.Known c.image starts inner) (hstart : start ∈ s.queued)
    (hgo : c.isKnownEnd s start cursor = false) (hbest : c.best? cursor group = some code)
    (hdecode : c.decode s cursor code = (line, next)) :
    line.offset = cursor ∧ line.code = code ∧
      next.Known c.image starts (innerOffsets start [line] ++ inner) ∧ s.Grows next ∧
      line.Shows c.toTarget next.labels := by
  obtain ⟨hmem, haccepts⟩ := Target.of_best? hbest
  obtain ⟨_, bytes, hread, hfits⟩ := Target.of_accepts haccepts
  obtain ⟨_, _, hholds⟩ := Target.of_fits hfits
  have hlength := (Image.of_read? hread).1
  have hcode := hcodes code hmem
  have hpushed := h.decode hstart hgo (codeEnd cursor code)
  obtain ⟨hknown, hgrows, hoperands⟩ := hpushed.operands c.mode hcode.proper
    (fun p hp => hlength ▸ hcode.stop_le p hp) hholds
  simp only [decode, hread, Option.getD_some, Prod.mk.injEq] at hdecode
  obtain ⟨rfl, rfl⟩ := hdecode
  refine ⟨rfl, rfl, hknown, ⟨hgrows.labels, hgrows.queued, hgrows.blocks⟩, hmem, ⟨group, haccepts⟩,
    ?_⟩
  simp only [Line.bytes, hread, Option.getD_some]
  exact hoperands

/-- Decoding the rest of a block keeps what is known, and finds codes one after the other. -/
theorem lines_spec (hcodes : ∀ code ∈ c.codes, code.WellFormed) {start : UInt32}
    (h : s.Known c.image starts inner) (hstart : start ∈ s.queued) (group : Option String)
    (cursor : UInt32) :
    (c.lines start group cursor s).2.Known c.image starts
        (innerOffsets start (c.lines start group cursor s).1 ++ inner) ∧
      s.Grows (c.lines start group cursor s).2 ∧ Chain cursor (c.lines start group cursor s).1 ∧
      ∀ line ∈ (c.lines start group cursor s).1,
        line.Shows c.toTarget (c.lines start group cursor s).2.labels := by
  -- The cases of the loop: a known end, the limit, no code that fits, a code that overlaps a
  -- decoded one, and a code after which the block goes on or ends.
  fun_induction Context.lines c start group cursor s generalizing inner with
  | case1 cursor s hk => exact ⟨h, .refl s, .nil _, by simp⟩
  | case2 cursor s hk hlimit => exact ⟨h.unseen _ _, ⟨fun _ h => h, fun _ h => h, rfl⟩, .nil _, by simp⟩
  | case3 cursor s hk hlimit hbest =>
    exact ⟨h.unseen _ _, ⟨fun _ h => h, fun _ h => h, rfl⟩, .nil _, by simp⟩
  | case4 cursor s hk hlimit code hbest hover => exact ⟨h, .refl s, .nil _, by simp⟩
  | case5 cursor s hk hlimit code hbest hover line next hdecode hgo rest final hrest ih =>
    obtain ⟨rfl, rfl, hknown, hgrows, hshows⟩ :=
      decode_spec hcodes h hstart (Bool.eq_false_iff.2 hk) hbest hdecode
    have hlater := ih hknown (hgrows.queued hstart)
    rw [hrest] at hlater
    obtain ⟨hlast, hmore, hchain, hlines⟩ := hlater
    have hinner : innerOffsets start (line :: rest) =
        innerOffsets start [line] ++ innerOffsets start rest :=
      List.filter_append [line.offset] (rest.map Line.offset)
    refine ⟨hlast.of_perm ?_, hgrows.trans hmore, .cons hgo.2 hchain,
      List.forall_mem_cons.2 ⟨hshows.mono hmore.labels, hlines⟩⟩
    -- The loop adds the offset of its code before those of the rest.
    rw [← List.append_assoc, hinner]
    exact List.perm_append_comm.append_right _
  | case6 cursor s hk hlimit code hbest hover line next hdecode hgo =>
    obtain ⟨rfl, rfl, hknown, hgrows, hshows⟩ :=
      decode_spec hcodes h hstart (Bool.eq_false_iff.2 hk) hbest hdecode
    exact ⟨hknown, hgrows, .last line, List.forall_mem_singleton.2 hshows⟩

end Context

/-! ## Blocks -/

/-- What a decoding has found when it is between blocks. -/
structure State.Decoded (c : Context) (s : State) : Prop where
  known : s.Known c.image (s.blocks.toList.map Block.start) (s.blocks.toList.flatMap Block.inner)
  chains : ∀ b ∈ s.blocks.toList, Chain b.start b.lines
  lines : ∀ b ∈ s.blocks.toList, ∀ line ∈ b.lines, line.Shows c.toTarget s.labels

/-- No more blocks are decoded or queued than the image has bytes. -/
theorem State.Decoded.size_le (h : s.Decoded c) : s.blocks.size + s.queue.length ≤ c.image.size := by
  have hnodup : s.queued.Nodup := (List.nodup_append.1 h.known.nodup).2.1
  have hle := length_le_of_distinct UInt32.toNat
    (hnodup.imp fun hne heq => hne (UInt32.toNat_inj.1 heq))
    fun offset ho => h.known.inside offset (List.mem_append_right _ ho)
  have hlength := h.known.perm.length_eq
  simp only [List.length_append, List.length_map, Array.length_toList] at hlength
  omega

namespace Context

/-- Decoding a block of the queue. -/
theorem block_spec (hcodes : ∀ code ∈ c.codes, code.WellFormed) (h : s.Decoded c) {task : Task}
    {queue : List Task} (hqueue : s.queue = task :: queue) :
    (c.block { s with queue } task).Decoded c ∧
      (c.block { s with queue } task).blocks.size = s.blocks.size + 1 := by
  -- Taking a task from the queue makes its offset the start of a block.
  have hperm : ((s.blocks.toList.map Block.start ++ [task.offset]) ++
      queue.map Task.offset).Perm s.queued := by
    have hperm := h.known.perm
    rw [hqueue, List.map_cons, List.append_cons] at hperm
    exact hperm
  have hstart : task.offset ∈ s.queued := hperm.mem_iff.1 (by simp)
  have hknown : State.Known c.image (s.blocks.toList.map Block.start ++ [task.offset])
      (s.blocks.toList.flatMap Block.inner) { s with queue } :=
    ⟨hperm, h.known.nodup, h.known.inside, h.known.decoded, h.known.isDecoded, h.known.labels⟩
  obtain ⟨hlast, hgrows, hchain, hlines⟩ := lines_spec hcodes hknown hstart
    task.group task.offset
  unfold block
  -- From here on only what `lines_spec` says of the lines matters.
  generalize c.lines task.offset task.group task.offset { s with queue } = result at *
  obtain ⟨lines, final⟩ := result
  have hblocks : final.blocks = s.blocks := hgrows.blocks
  refine ⟨⟨?_, ?_, ?_⟩, by simp [hblocks]⟩
  · simp only [Array.toList_push, List.map_append, List.map_singleton, List.flatMap_append,
      List.flatMap_singleton, hblocks]
    exact (hlast.of_perm List.perm_append_comm).unseen _ _
  · simp only [Array.toList_push, List.forall_mem_append, List.forall_mem_singleton, hblocks]
    exact ⟨h.chains, hchain⟩
  · simp only [Array.toList_push, List.forall_mem_append, List.forall_mem_singleton, hblocks]
    exact ⟨fun b hb line hline => (h.lines b hb line hline).mono hgrows.labels, hlines⟩

/-- What each block keeps, the blocks of the queue keep. -/
theorem blocks_induction {P : State → Prop} (hblock : ∀ {s : State}, P s →
    ∀ {task : Task} {queue : List Task}, s.queue = task :: queue → P (c.block { s with queue } task))
    (h : P s) (count : Nat) : P (c.blocks count s) := by
  induction count generalizing s with
  | zero => exact h
  | succ count ih =>
    cases hqueue : s.queue with
    | nil => simpa only [blocks, hqueue] using h
    | cons task queue =>
      simp only [blocks, hqueue]
      exact ih (hblock h hqueue)

/-- Decoding the blocks of the queue comes to its end. -/
theorem blocks_spec (hcodes : ∀ code ∈ c.codes, code.WellFormed) (h : s.Decoded c) {count : Nat}
    (hcount : c.image.size < s.blocks.size + count) :
    (c.blocks count s).Decoded c ∧ (c.blocks count s).queue = [] := by
  induction count generalizing s with
  | zero =>
    -- The count is greater than the number of blocks that the image has room for.
    have := h.size_le
    omega
  | succ count ih =>
    cases hqueue : s.queue with
    | nil => simp only [blocks, hqueue, h, and_self]
    | cons task queue =>
      obtain ⟨hnext, hsize⟩ := block_spec hcodes h hqueue
      simp only [blocks, hqueue]
      exact ih hnext (by omega)

/-- A finished decoding of a block in the image. -/
theorem run_spec (hcodes : ∀ code ∈ c.codes, code.WellFormed) (task : Task)
    (hin : task.offset.toNat < c.image.size) (log : Log) :
    (c.run task log).Decoded c ∧ (c.run task log).queue = [] := by
  refine blocks_spec hcodes ⟨⟨?_, ?_, ?_, ?_, ?_, ?_⟩, ?_, ?_⟩ (by simp) <;> simp [hin]

end Context

end CartScript.Listing
