import CartScript.Proofs.Listing.Ending

/-!
# Where blocks end

Every block of a listing ends for a reason that can be seen: its last code is one that ends a block, it
has come to the end of the image or to something that is listed elsewhere, or something was logged.
There is one exception.  A block also ends, without a word, before a code that would take bytes of
which another block starts.
-/

namespace CartScript.Listing

/-! ## The ends of blocks -/

/-- The offset after codes that stand one after the other from an offset on. -/
def stopAfter (cursor : UInt32) (lines : List Line) : UInt32 :=
  (lines.getLast?.map fun line => codeEnd line.offset line.code).getD cursor

/-- The offset after the last code of a block; its start, if it has none. -/
def Block.stop (b : Block) : UInt32 := stopAfter b.start b.lines

theorem stopAfter_cons (cursor : UInt32) (line : Line) (lines : List Line) :
    stopAfter cursor (line :: lines) = stopAfter (codeEnd line.offset line.code) lines := by
  cases lines with
  | nil => rfl
  | cons other lines => simp only [stopAfter, List.getLast?_cons, Option.map_some, Option.getD_some]

/-- Codes one after the other stand before the offset after them. -/
theorem Chain.lt_stopAfter {cursor : UInt32} {lines : List Line} (h : Chain cursor lines)
    (hlt : ∀ line ∈ lines, line.offset.toNat < (codeEnd line.offset line.code).toNat) :
    cursor.toNat ≤ (stopAfter cursor lines).toNat ∧
      ∀ line ∈ lines, line.offset.toNat < (stopAfter cursor lines).toNat := by
  induction h with
  | nil => exact ⟨Nat.le_refl _, fun line hline => absurd hline List.not_mem_nil⟩
  | last line =>
    have hline := hlt line (List.mem_singleton_self _)
    exact ⟨Nat.le_of_lt hline, List.forall_mem_singleton.2 hline⟩
  | @cons line lines hline h ih =>
    obtain ⟨hle, hlines⟩ := ih (List.forall_mem_cons.1 hlt).2
    rw [stopAfter_cons]
    exact ⟨by omega, List.forall_mem_cons.2 ⟨by omega, hlines⟩⟩

/-! ## Nothing is taken back -/

/-- A code with a parameter of the group of a block and the label of the block as its operand. -/
def Line.Refers (line : Line) (task : Task) : Prop :=
  ∃ pair ∈ line.code.params.zip line.operands, ∃ group element,
    pair.1.kind = .struct group element ∧ pair.2 = .label task.offset ∧ task.group = some group

/-- What is to be decoded: the first block, and those that codes refer to. -/
def Asked (first : Task) (lines : List Line) (task : Task) : Prop :=
  task = first ∨ ∃ line ∈ lines, line.Refers task

namespace State

/-- A decoding that has gone on takes nothing back.  The blocks that it queued are of a kind. -/
structure Extends (added : Task → Prop) (s t : State) : Prop where
  decoded : s.decoded ⊆ t.decoded
  queued : s.queued ⊆ t.queued
  log : s.log.newest <:+ t.log.newest
  queue : ∀ task ∈ t.queue, task ∈ s.queue ∨ added task
  blocks : t.blocks = s.blocks

variable {added more : Task → Prop} {s t u : State}

theorem Extends.refl (added : Task → Prop) (s : State) : s.Extends added s :=
  ⟨List.Subset.refl _, List.Subset.refl _, List.suffix_rfl, fun _ => .inl, rfl⟩

theorem Extends.imp (h : s.Extends added t) (himp : ∀ task, added task → more task) :
    s.Extends more t :=
  { h with queue := fun task htask => (h.queue task htask).imp_right (himp task) }

theorem Extends.trans (h : s.Extends added t) (h' : t.Extends added u) : s.Extends added u where
  decoded := List.Subset.trans h.decoded h'.decoded
  queued := List.Subset.trans h.queued h'.queued
  log := h.log.trans h'.log
  queue task htask := by
    rcases h'.queue task htask with htask | hnew
    · exact h.queue task htask
    · exact .inr hnew
  blocks := h'.blocks.trans h.blocks

theorem extends_follow (s : State) (offset : UInt32) (group : String) :
    s.Extends (fun task => task = ⟨offset, some group⟩) (s.follow offset group) := by
  obtain ⟨labels, _, _, _, hfollow⟩ := s.follow_eq offset group
  rw [hfollow]
  split
  · exact ⟨List.Subset.refl _, List.Subset.refl _, List.suffix_rfl, fun _ => .inl, rfl⟩
  · refine ⟨List.Subset.refl _, List.subset_cons_self .., List.suffix_rfl, fun task htask => ?_, rfl⟩
    exact (List.mem_append.1 htask).imp_right List.mem_singleton.1

theorem extends_operand (mode : Mode) (base : UInt32) (s : State) (param : Param)
    (bytes : List UInt8) :
    s.Extends (fun task => ∃ group element, param.kind = .struct group element ∧
        (s.operand mode base param bytes).1 = .label task.offset ∧ task.group = some group)
      (s.operand mode base param bytes).2 := by
  simp only [operand]
  split
  · rename_i group element offset hkind hoffset
    split
    · refine (extends_follow s offset group).imp ?_
      rintro _ rfl
      exact ⟨group, element, hkind, rfl, rfl⟩
    · exact .refl _ s
  · exact .refl _ s

theorem extends_operands (mode : Mode) (base : UInt32) (bytes : List UInt8) (params : List Param)
    (s : State) :
    s.Extends (fun task => ∃ pair ∈ params.zip (operands mode base bytes params s).1,
        ∃ group element, pair.1.kind = .struct group element ∧ pair.2 = .label task.offset ∧
          task.group = some group)
      (operands mode base bytes params s).2 := by
  induction params generalizing s with
  | nil => exact .refl _ s
  | cons param params ih =>
    simp only [operands, List.zip_cons_cons]
    refine Extends.trans ((extends_operand mode base s param (paramBytes param bytes)).imp ?_)
      ((ih _).imp ?_)
    · rintro task htask
      exact ⟨_, .head _, htask⟩
    · rintro task ⟨pair, hpair, htask⟩
      exact ⟨pair, .tail _ hpair, htask⟩

end State

namespace Context

variable {c : Context} {s : State}

theorem line_of_decode {cursor : UInt32} {code : Code} {line : Line} {next : State}
    (h : c.decode s cursor code = (line, next)) : line.offset = cursor ∧ line.code = code := by
  simp only [decode, Prod.mk.injEq] at h
  rw [← h.1]
  exact ⟨rfl, rfl⟩

theorem extends_decode {cursor : UInt32} {code : Code} {line : Line} {next : State}
    (h : c.decode s cursor code = (line, next)) : s.Extends line.Refers next := by
  simp only [decode, Prod.mk.injEq] at h
  obtain ⟨rfl, rfl⟩ := h
  have hpushed : s.Extends (fun _ => False)
      { s with decoded := (cursor, codeEnd cursor code) :: s.decoded } :=
    ⟨List.subset_cons_self .., List.Subset.refl _, List.suffix_rfl, fun _ => .inl, rfl⟩
  exact (hpushed.imp fun _ => False.elim).trans
    (State.extends_operands c.mode c.pointerBase _ code.params _)

theorem extends_lines (c : Context) (start : UInt32) (group : Option String) (cursor : UInt32)
    (s : State) :
    s.Extends (fun task => ∃ line ∈ (c.lines start group cursor s).1, line.Refers task)
      (c.lines start group cursor s).2 := by
  have hlogged : ∀ (s : State) (severity : Severity) (location : Location) (text : String) added,
      s.Extends added { s with log := s.log.push severity location text } := fun s _ _ _ _ =>
    ⟨List.Subset.refl _, List.Subset.refl _, List.suffix_cons .., fun _ => .inl, rfl⟩
  -- The same cases as in `lines_spec`.
  fun_induction Context.lines c start group cursor s with
  | case1 cursor s hk => exact .refl _ s
  | case2 cursor s hk hlimit | case3 cursor s hk hlimit hbest => exact hlogged s ..
  | case4 cursor s hk hlimit code hbest hover => exact .refl _ s
  | case5 cursor s hk hlimit code hbest hover line next hdecode hgo rest final hrest ih =>
    rw [hrest] at ih
    refine State.Extends.trans ((extends_decode hdecode).imp fun task htask => ?_)
      (ih.imp fun task htask => ?_)
    · exact ⟨line, .head _, htask⟩
    · obtain ⟨other, hother, hrefers⟩ := htask
      exact ⟨other, .tail _ hother, hrefers⟩
  | case6 cursor s hk hlimit code hbest hover line next hdecode hgo =>
    exact (extends_decode hdecode).imp fun task htask => ⟨line, List.mem_singleton_self _, htask⟩

end Context

/-! ## What blocks have come to -/

/-- Something that was logged after a log. -/
def State.Reported (log : Log) (s : State) (d : Diagnostic) : Prop :=
  ∃ before, log.newest <:+ before ∧ d :: before <:+ s.log.newest

/-- What the loop of a block has come to when it ends at an offset. -/
inductive Halts (c : Context) (group : Option String) (log : Log) (s : State) (start stop : UInt32)
    (lines : List Line) : Prop
  | terminated {line : Line} (hlast : lines.getLast? = some line)
      (hline : line.code.terminates = true)
  | known (hknown : c.isKnownEnd s start stop = true)
  | sizeLimit (hlog : s.Reported log
      ⟨.warning, .image start, (ListFault.sizeLimit start c.sizeLimit).message⟩)
  | noMatch (hlog : s.Reported log ⟨.error, .image stop, (ListFault.noMatch stop).message⟩)
  | crossed {code : Code} {offset : UInt32} (hbest : c.best? stop group = some code)
      (hqueued : offset ∈ s.queued) (hlt : stop < offset) (hgt : offset < codeEnd stop code)

namespace Halts

variable {c : Context} {group : Option String} {log : Log} {s t : State} {start stop : UInt32}
  {lines : List Line}

theorem cons (h : Halts c group log s start stop lines) (line : Line) :
    Halts c group log s start stop (line :: lines) := by
  cases h with
  | terminated hlast hline => exact .terminated (by rw [List.getLast?_cons, hlast]; rfl) hline
  | known hknown => exact .known hknown
  | sizeLimit hlog => exact .sizeLimit hlog
  | noMatch hlog => exact .noMatch hlog
  | crossed hbest hqueued hlt hgt => exact .crossed hbest hqueued hlt hgt

/-- The decoding may go on, since it takes nothing back. -/
theorem mono (h : Halts c group log s start stop lines) (hdecoded : s.decoded ⊆ t.decoded)
    (hqueued : s.queued ⊆ t.queued) (hlog : s.log.newest <:+ t.log.newest) :
    Halts c group log t start stop lines := by
  have hreported : ∀ {d}, s.Reported log d → t.Reported log d := fun ⟨before, hbefore, hd⟩ =>
    ⟨before, hbefore, hd.trans hlog⟩
  cases h with
  | terminated hlast hline => exact .terminated hlast hline
  | known hknown =>
    refine .known ?_
    simp only [Context.isKnownEnd, Bool.or_eq_true, Bool.and_eq_true, State.isDecoded_iff,
      State.isQueued_iff] at hknown ⊢
    refine hknown.imp_left (And.imp_right (Or.imp ?_ fun h => hqueued h))
    rintro ⟨code, hcode, heq⟩
    exact ⟨code, hdecoded hcode, heq⟩
  | sizeLimit hlog => exact .sizeLimit (hreported hlog)
  | noMatch hlog => exact .noMatch (hreported hlog)
  | crossed hbest hmem hlt hgt => exact .crossed hbest (hqueued hmem) hlt hgt

end Halts

namespace Context

variable {c : Context} {s : State} {first : Task} {log : Log}
  (hcodes : ∀ code ∈ c.codes, code.WellFormed) (hsize : c.image.size < 2 ^ 32)

include hcodes hsize

/-- What the loop of a block has come to at its end. -/
theorem lines_halts (start : UInt32) (group : Option String) (cursor : UInt32)
    (hlog : log.newest <:+ s.log.newest) :
    Halts c group log (c.lines start group cursor s).2 start
      (stopAfter cursor (c.lines start group cursor s).1) (c.lines start group cursor s).1 := by
  -- The loop leaves the state in which it ends as it is, but for the log.
  fun_induction Context.lines c start group cursor s with
  | case1 cursor s hk => exact .known hk
  | case2 cursor s hk hlimit => exact .sizeLimit ⟨_, hlog, List.suffix_rfl⟩
  | case3 cursor s hk hlimit hbest => exact .noMatch ⟨_, hlog, List.suffix_rfl⟩
  | case4 cursor s hk hlimit code hbest hover =>
    simp only [List.any_eq_true, Bool.and_eq_true, decide_eq_true_eq] at hover
    obtain ⟨offset, hqueued, hlt, hgt⟩ := hover
    exact .crossed hbest hqueued hlt hgt
  | case5 cursor s hk hlimit code hbest hover line next hdecode hgo rest final hrest ih =>
    obtain ⟨hoffset, hcode⟩ := line_of_decode hdecode
    have hlater := ih (hlog.trans (extends_decode hdecode).log)
    rw [hrest] at hlater
    rw [stopAfter_cons, hoffset, hcode]
    exact hlater.cons line
  | case6 cursor s hk hlimit code hbest hover line next hdecode hgo =>
    have hterminates : line.code.terminates = true := by
      rw [(line_of_decode hdecode).2]
      by_contra hgoes
      exact hgo ⟨hgoes, lt_codeEnd hcodes hsize hbest⟩
    exact .terminated rfl hterminates

end Context

theorem Asked.mono {first : Task} {lines more : List Line} {task : Task} (h : Asked first lines task)
    (hsub : lines ⊆ more) : Asked first more task :=
  h.imp_right fun ⟨line, hline, hrefers⟩ => ⟨line, hsub hline, hrefers⟩

/-- The codes of the blocks that were decoded. -/
def State.lines (s : State) : List Line := s.blocks.toList.flatMap Block.lines

/-- A decoding between blocks.  What is queued was asked for, and every block was asked for in a group
    and has come to its end. -/
structure State.Concluded (c : Context) (first : Task) (log : Log) (s : State) : Prop where
  logged : log.newest <:+ s.log.newest
  queued : first.offset ∈ s.queued
  tasks : ∀ task ∈ s.queue, Asked first s.lines task
  blocks : ∀ b ∈ s.blocks.toList, ∃ group, Asked first s.lines ⟨b.start, group⟩ ∧
    Halts c group log s b.start b.stop b.lines

namespace Context

variable {c : Context} {s : State} {first : Task} {log : Log}
  (hcodes : ∀ code ∈ c.codes, code.WellFormed) (hsize : c.image.size < 2 ^ 32)

include hcodes hsize

theorem block_concluded (h : s.Concluded c first log) {task : Task} {queue : List Task}
    (hqueue : s.queue = task :: queue) : (c.block { s with queue } task).Concluded c first log := by
  obtain ⟨htask, htasks⟩ := List.forall_mem_cons.1 (hqueue ▸ h.tasks)
  have hext := extends_lines c task.offset task.group task.offset { s with queue }
  have hhalts := lines_halts hcodes hsize (s := { s with queue }) task.offset task.group task.offset
    h.logged
  unfold block
  -- From here on only what is known of the loop matters.
  generalize c.lines task.offset task.group task.offset { s with queue } = result at hext hhalts
  obtain ⟨lines, final⟩ := result
  have hblocks : (final.blocks.push ⟨task.offset, lines⟩).toList =
      s.blocks.toList ++ [⟨task.offset, lines⟩] := by rw [Array.toList_push, hext.blocks]
  have hlines : ({ final with blocks := final.blocks.push ⟨task.offset, lines⟩ } : State).lines =
      s.lines ++ lines := by
    simp only [State.lines, hblocks, List.flatMap_append, List.flatMap_singleton]
  have hold : s.lines ⊆ s.lines ++ lines := List.subset_append_left ..
  refine ⟨h.logged.trans hext.log, hext.queued h.queued, fun other hother => ?_, fun b hb => ?_⟩
  · rw [hlines]
    rcases hext.queue other hother with hother | ⟨line, hline, hrefers⟩
    · exact (htasks other hother).mono hold
    · exact .inr ⟨line, List.mem_append_right _ hline, hrefers⟩
  · rw [hlines]
    simp only [hblocks, List.mem_append, List.mem_singleton] at hb
    rcases hb with hb | rfl
    · obtain ⟨group, hasked, hb⟩ := h.blocks b hb
      exact ⟨group, hasked.mono hold, hb.mono hext.decoded hext.queued hext.log⟩
    · exact ⟨task.group, htask.mono hold, hhalts.mono (List.Subset.refl _) (List.Subset.refl _)
        List.suffix_rfl⟩

/-- The blocks of a finished decoding have come to their ends. -/
theorem run_concluded (task : Task) (log : Log) : (c.run task log).Concluded c task log := by
  have hstart : State.Concluded c task log { queue := [task], queued := [task.offset], log } :=
    { logged := List.suffix_rfl
      queued := List.mem_singleton_self _
      tasks := List.forall_mem_singleton.2 (.inl rfl)
      blocks := fun b hb => absurd hb List.not_mem_nil }
  exact blocks_induction (block_concluded hcodes hsize) hstart _

end Context

/-! ## Listings -/

/-- A reason for the end of a block that can be seen: its last code ends a block, or there the image
    ends, or another block or a code of one starts, or the end was logged. -/
def Block.Accounted (size limit : Nat) (blocks : List Block) (reported : List Diagnostic)
    (b : Block) : Prop :=
  b.lines.getLast?.any (·.code.terminates) = true ∨ size ≤ b.stop.toNat ∨
    (∃ other ∈ blocks, other ≠ b ∧
      (other.start = b.stop ∨ b.stop ∈ other.lines.map Line.offset)) ∨
    ⟨.error, .image b.stop, (ListFault.noMatch b.stop).message⟩ ∈ reported ∨
    ⟨.warning, .image b.start, (ListFault.sizeLimit b.start limit).message⟩ ∈ reported

instance (size limit : Nat) (blocks : List Block) (reported : List Diagnostic) (b : Block) :
    Decidable (b.Accounted size limit blocks reported) :=
  inferInstanceAs (Decidable (_ ∨ _))

/-- A block that ends before a code of its group inside of which another block starts. -/
def Block.Crossed (t : Target) (first : Task) (blocks : List Block) (b : Block) : Prop :=
  ∃ group code, Asked first (blocks.flatMap Block.lines) ⟨b.start, group⟩ ∧
    t.best? b.stop group = some code ∧ ∃ other ∈ blocks, b.stop.toNat < other.start.toNat ∧
      other.start.toNat < b.stop.toNat + code.length

namespace State

variable {c : Context} {s : State} {first : Task} {log : Log} {reported : List Diagnostic}
  {offset : UInt32}

theorem Decoded.exists_block (h : s.Decoded c) (hqueue : s.queue = []) (hoffset : offset ∈ s.queued) :
    ∃ b ∈ s.blocks.toList, b.start = offset := by
  have hperm := h.known.perm
  rw [hqueue, List.map_nil, List.append_nil] at hperm
  exact List.mem_map.1 (hperm.mem_iff.2 hoffset)

theorem Listed.exists_line {size : Nat} (h : s.Listed size) (hoffset : s.isDecoded offset = true) :
    ∃ b ∈ s.blocks.toList, ∃ line ∈ b.lines, line.offset = offset := by
  obtain ⟨code, hcode, rfl⟩ := isDecoded_iff.1 hoffset
  rw [h.decoded, List.mem_reverse] at hcode
  obtain ⟨line, hline, rfl⟩ := List.mem_map.1 hcode
  obtain ⟨b, hb, hline⟩ := List.mem_flatMap.1 hline
  exact ⟨b, hb, line, hline, rfl⟩

/-- What was logged after a log stands behind its entries. -/
theorem Reported.mem {d : Diagnostic} (h : s.Reported log d)
    (hlog : s.log.entries = log.entries ++ reported) : d ∈ reported := by
  obtain ⟨before, ⟨older, rfl⟩, newer, hnewest⟩ := h
  have hentries : s.log.entries = log.entries ++ (older.reverse ++ d :: newer.reverse) := by
    simp [Log.entries, ← hnewest]
  rw [List.append_cancel_left (hlog.symm.trans hentries)]
  exact List.mem_append_right _ (.head _)

/-- Another block, or a code of one, stands where a block ends. -/
theorem Decoded.exists_other (h : s.Decoded c) (hlisted : s.Listed c.image.size)
    (hqueue : s.queue = []) {b : Block} (hb : b ∈ s.blocks.toList) (hne : b.stop ≠ b.start)
    (hstop : s.isDecoded b.stop = true ∨ s.isQueued b.stop = true) :
    ∃ other ∈ s.blocks.toList, other ≠ b ∧
      (other.start = b.stop ∨ b.stop ∈ other.lines.map Line.offset) := by
  rcases hstop with hdecoded | hqueued
  · obtain ⟨other, hother, line, hline, hoffset⟩ := hlisted.exists_line hdecoded
    refine ⟨other, hother, ?_, .inr (List.mem_map.2 ⟨line, hline, hoffset⟩)⟩
    rintro rfl
    -- The codes of the block itself stand before its end.
    have hlt : ∀ line ∈ other.lines, line.offset.toNat < (codeEnd line.offset line.code).toNat := by
      intro line hline
      refine (hlisted.tidy.within line.extent ?_).1
      rw [hlisted.decoded, List.mem_reverse]
      exact List.mem_map_of_mem (List.mem_flatMap.2 ⟨other, hother, hline⟩)
    have hbefore := ((h.chains other hother).lt_stopAfter hlt).2 line hline
    rw [hoffset] at hbefore
    exact absurd hbefore (Nat.lt_irrefl _)
  · obtain ⟨other, hother, hstart⟩ := h.exists_block hqueue (isQueued_iff.1 hqueued)
    refine ⟨other, hother, ?_, .inl hstart⟩
    rintro rfl
    exact hne hstart.symm

/-- The blocks of a finished decoding end for a reason that can be seen, or before a code inside of
    which another block starts. -/
theorem Concluded.accounted (h : s.Concluded c first log) (hsize : c.image.size < 2 ^ 32)
    (hdecoded : s.Decoded c) (hlisted : s.Listed c.image.size) (hqueue : s.queue = [])
    (hlog : s.log.entries = log.entries ++ reported) {b : Block} (hb : b ∈ s.blocks.toList) :
    b.Accounted c.image.size c.sizeLimit s.blocks.toList reported ∨
      b.Crossed c.toTarget first s.blocks.toList := by
  obtain ⟨group, hasked, hhalts⟩ := h.blocks b hb
  cases hhalts with
  | terminated hlast hline => exact .inl (.inl (by rw [hlast]; exact hline))
  | known hknown =>
    simp only [Context.isKnownEnd, Bool.or_eq_true, Bool.and_eq_true, bne_iff_ne,
      decide_eq_true_eq] at hknown
    rcases hknown with ⟨hne, hstop⟩ | hend
    · exact .inl (.inr (.inr (.inl (hdecoded.exists_other hlisted hqueue hb hne hstop))))
    · exact .inl (.inr (.inl hend))
  | sizeLimit hreported => exact .inl (.inr (.inr (.inr (.inr (hreported.mem hlog)))))
  | noMatch hreported => exact .inl (.inr (.inr (.inr (.inl (hreported.mem hlog)))))
  | crossed hbest hqueued hlt hgt =>
    obtain ⟨other, hother, rfl⟩ := hdecoded.exists_block hqueue hqueued
    rw [UInt32.lt_iff_toNat_lt] at hlt hgt
    rw [(Target.toNat_codeEnd hsize hbest).1] at hgt
    exact .inr ⟨group, _, hasked, hbest, other, hother, hlt, hgt⟩

end State

/-- Why the blocks of a listing end.  There is a block where the listing starts, and each block ends for
    a reason that can be seen, or before a code of its group inside of which another block starts. -/
theorem disassemble_blocks_end {registry : Registry} (hr : registry.Loaded) (game : String)
    {image : Image} (hsize : image.size < 2 ^ 32) (base : UInt32) (request : Request)
    (hin : (request.start base).toNat < image.size) (log : Log) :
    let target : Target := { image, codes := registry.forGame game, pointerBase := base }
    let blocks := decodedBlocks target request log
    ∃ reported, (disassemble target request log).2.entries = log.entries ++ reported ∧
      (∃ b ∈ blocks, b.start = request.start base) ∧
      ∀ b ∈ blocks, b.Accounted image.size request.sizeLimit blocks reported ∨
        b.Crossed target ⟨request.start base, request.group⟩ blocks := by
  intro target blocks
  let context : Context :=
    { toTarget := target, mode := request.mode, sizeLimit := request.sizeLimit }
  let task : Task := ⟨request.start base, request.group⟩
  have hcodes : ∀ code ∈ context.codes, code.WellFormed := fun code hcode =>
    wellFormed_of_mem_forGame hr.wellFormed hcode
  obtain ⟨hdecoded, hqueue⟩ := Context.run_spec hcodes task hin log
  have hlisted := Context.run_listed (c := context) hsize
    (fun code hcode => (hcodes code hcode).length_pos) task log
  have hconcluded := Context.run_concluded hcodes hsize task log
  obtain ⟨new, hnew⟩ := hconcluded.logged
  have hlog : (context.run task log).log.entries = log.entries ++ new.reverse := by
    rw [Log.entries, ← hnew, List.reverse_append, Log.entries]
  have hinside : ¬target.image.size ≤ (request.start target.pointerBase).toNat := Nat.not_le.2 hin
  have hblocks : blocks = (context.run task log).blocks.toList := if_neg hinside
  have hfinal : (disassemble target request log).2 = (context.run task log).log := by
    simp only [disassemble, if_neg hinside]
    rfl
  rw [hfinal, hblocks]
  exact ⟨new.reverse, hlog, hdecoded.exists_block hqueue hconcluded.queued, fun b hb =>
    hconcluded.accounted hsize hdecoded hlisted hqueue hlog hb⟩

end CartScript.Listing

namespace CartScript.Sample

/-- A call of a unit that starts inside of what looks like another unit. -/
def overlap : Image :=
  Array.replicate 0x10 0 ++ #[
    0x11, 0, 0, 0, 0x20, 0, 0, 0x08, 0, 0, 0, 0x09,
    0x33, 0, 0, 0,
    0x33, 0, 0, 0, 0x48, 0x69, 0, 0, 0xFE, 0xFF, 5, 0]

end CartScript.Sample

namespace CartScript.Listing

/-- The first block ends before the unit that would take the start of the other one. -/
theorem disassemble_blocks_end_overlap :
    let target : Target :=
      { image := Sample.overlap, codes := Sample.units.forGame "FE8", pointerBase := 0x08000000 }
    let request : Request := { offset := 0x10 }
    let blocks := decodedBlocks target request {}
    Sample.units.Loaded ∧ Sample.overlap.size < 2 ^ 32 ∧
      (request.start 0x08000000).toNat < Sample.overlap.size ∧
      ∃ reported, (disassemble target request {}).2.entries = reported ∧
        ∀ b ∈ blocks, b.Accounted Sample.overlap.size 0x1000 blocks reported ∨
          b.Crossed target ⟨0x10, none⟩ blocks := by
  intro target request blocks
  have hsize : Sample.overlap.size < 2 ^ 32 := by decide +kernel
  have hin : (request.start 0x08000000).toNat < Sample.overlap.size := by decide +kernel
  obtain ⟨reported, hlog, -, hblocks⟩ :=
    disassemble_blocks_end Sample.units_loaded "FE8" hsize 0x08000000 request hin {}
  exact ⟨Sample.units_loaded, hsize, hin, reported, hlog, hblocks⟩

/-- Nothing is logged, and there is a block whose end nothing else accounts for. -/
theorem disassemble_silent_end :
    let target : Target :=
      { image := Sample.overlap, codes := Sample.units.forGame "FE8", pointerBase := 0x08000000 }
    let request : Request := { offset := 0x10 }
    let blocks := decodedBlocks target request {}
    Sample.units.Loaded ∧ Sample.overlap.size < 2 ^ 32 ∧
      (request.start 0x08000000).toNat < Sample.overlap.size ∧
      disassemble target request {} =
        ("ORG 0x10\nlabel_000010:\nCALL(label_000020, 0x1000000)\n\n" ++
          "ORG 0x20\nlabel_000020:\nUNIT(\"Hi\", [-2, 5])\n", {}) ∧
      ∃ b ∈ blocks, b.stop = 0x1C ∧ ¬b.Accounted Sample.overlap.size 0x1000 blocks [] :=
  ⟨Sample.units_loaded, by decide +kernel⟩

end CartScript.Listing
