import CartScript.Proofs.Listing.Entries

/-!
# Decoded codes lie apart

No byte is decoded twice.  A code is decoded only if no offset of the queue lies inside it, and an
offset inside a decoded code is never queued.  That is enough: the first code of a block starts at an
offset that was queued, and every other one where the code before it ends.
-/

namespace CartScript.Listing

/-- The start and the end of a decoded code. -/
def Line.extent (line : Line) : UInt32 × UInt32 := (line.offset, codeEnd line.offset line.code)

/-- The bytes from a start to an end. -/
def bytesOf (code : UInt32 × UInt32) : Interval := ⟨code.1.toNat, code.2.toNat⟩

namespace State

/-- An offset that lies inside no decoded code. -/
def Clear (s : State) (offset : UInt32) : Prop :=
  ∀ code ∈ s.decoded, offset.toNat ≤ code.1.toNat ∨ code.2.toNat ≤ offset.toNat

/-- An offset at which a code may start: it was queued, or another code ends there. -/
def Reached (s : State) (offset : UInt32) : Prop :=
  offset ∈ s.queued ∨ ∃ code ∈ s.decoded, code.2 = offset

/-- What a decoding keeps about its codes and its queue. -/
structure Tidy (size : Nat) (s : State) : Prop where
  within : ∀ code ∈ s.decoded, code.1.toNat < code.2.toNat ∧ code.2.toNat ≤ size
  apart : s.decoded.Pairwise fun a b => (bytesOf a).Apart (bytesOf b)
  reached : ∀ code ∈ s.decoded, s.Reached code.1
  clear : ∀ offset ∈ s.queued, s.Clear offset
  queue : ∀ task ∈ s.queue, task.offset ∈ s.queued ∧ s.isDecoded task.offset = false
  nodup : (s.queue.map Task.offset).Nodup

/-- A decoding that has followed addresses. -/
structure Follows (s t : State) : Prop where
  decoded : t.decoded = s.decoded
  queued : s.queued ⊆ t.queued
  queue : ∀ task ∈ t.queue, task ∈ s.queue ∨ task.offset ∉ s.queued
  blocks : t.blocks = s.blocks

theorem Follows.refl (s : State) : s.Follows s := ⟨rfl, List.Subset.refl _, fun _ => .inl, rfl⟩

theorem Follows.trans {s t u : State} (h : s.Follows t) (h' : t.Follows u) : s.Follows u where
  decoded := h'.decoded.trans h.decoded
  queued := List.Subset.trans h.queued h'.queued
  queue task htask := by
    rcases h'.queue task htask with htask | hnew
    · exact h.queue task htask
    · exact .inr fun hold => hnew (h.queued hold)
  blocks := h'.blocks.trans h.blocks

variable {size : Nat} {s t : State} {offset : UInt32}

/-! ## Following addresses -/

/-- The decoded code that starts last before an offset. -/
theorem codeBefore?_spec (offset : UInt32) (decoded : List (UInt32 × UInt32)) :
    match codeBefore? offset decoded with
    | none => ∀ code ∈ decoded, offset.toNat ≤ code.1.toNat
    | some last => last ∈ decoded ∧ last.1.toNat < offset.toNat ∧
        ∀ code ∈ decoded, code.1.toNat < offset.toNat → code.1.toNat ≤ last.1.toNat := by
  induction decoded with
  | nil => simp [codeBefore?]
  | cons first decoded ih =>
    rw [codeBefore?]
    cases hrest : codeBefore? offset decoded with
    | none =>
      simp only [hrest] at ih ⊢
      by_cases hfirst : first.1 < offset
      · simp only [if_pos hfirst]
        refine ⟨.head _, UInt32.lt_iff_toNat_lt.1 hfirst, ?_⟩
        refine List.forall_mem_cons.2 ⟨fun _ => Nat.le_refl _, fun code hcode hlt => ?_⟩
        exact absurd hlt (Nat.not_lt.2 (ih code hcode))
      · simp only [if_neg hfirst]
        exact List.forall_mem_cons.2
          ⟨Nat.not_lt.1 fun h => hfirst (UInt32.lt_iff_toNat_lt.2 h), ih⟩
    | some other =>
      simp only [hrest] at ih ⊢
      obtain ⟨hmem, hlt, hlast⟩ := ih
      by_cases hlater : first.1 < offset ∧ other.1 < first.1
      · simp only [hlater.1, hlater.2, decide_true, Bool.and_self, if_true]
        have hbetween := UInt32.lt_iff_toNat_lt.1 hlater.2
        refine ⟨.head _, UInt32.lt_iff_toNat_lt.1 hlater.1, ?_⟩
        refine List.forall_mem_cons.2 ⟨fun _ => Nat.le_refl _, fun code hcode hcodelt => ?_⟩
        have := hlast code hcode hcodelt
        omega
      · have hkeep : (decide (first.1 < offset) && decide (other.1 < first.1)) = false := by
          simpa using hlater
        simp only [hkeep, Bool.false_eq_true, if_false]
        refine ⟨.tail _ hmem, hlt, List.forall_mem_cons.2 ⟨fun hfirst => ?_, hlast⟩⟩
        simp only [UInt32.lt_iff_toNat_lt] at hlater
        omega

/-- Codes that lie apart and share a byte are the same. -/
theorem eq_of_not_apart {decoded : List (UInt32 × UInt32)}
    (h : decoded.Pairwise fun a b => (bytesOf a).Apart (bytesOf b)) {a b : UInt32 × UInt32}
    (ha : a ∈ decoded) (hb : b ∈ decoded) (hab : ¬ (bytesOf a).Apart (bytesOf b)) : a = b := by
  have : Std.Symm fun a b : UInt32 × UInt32 => (bytesOf a).Apart (bytesOf b) :=
    ⟨fun _ _ => Interval.Apart.symm⟩
  by_contra hne
  exact hab (h.forall ha hb hne)

/-- What is not inside the last code before it is inside none. -/
theorem Tidy.clear_of_isInside (h : s.Tidy size) (hinside : s.isInside offset = false) :
    s.Clear offset := by
  intro code hcode
  have hspec := codeBefore?_spec offset s.decoded
  rw [isInside] at hinside
  cases hlast : codeBefore? offset s.decoded with
  | none =>
    rw [hlast] at hspec
    exact .inl (hspec code hcode)
  | some last =>
    rw [hlast] at hspec hinside
    obtain ⟨hmem, hlt, hmax⟩ := hspec
    simp only [Option.any_some, decide_eq_false_iff_not, UInt32.lt_iff_toNat_lt] at hinside
    by_cases hbefore : code.1.toNat < offset.toNat
    · refine .inr (Nat.not_lt.1 fun hover => ?_)
      -- The code would reach over the start of the last one, so it would be that one.
      have hle := hmax code hcode hbefore
      have hwithin := h.within last hmem
      have hsame : code = last := eq_of_not_apart h.apart hcode hmem (by
        simp only [bytesOf, Interval.Apart]
        omega)
      subst hsame
      omega
    · exact .inl (Nat.not_lt.1 hbefore)

/-- Following an address that does not point into a code. -/
theorem Tidy.follow (h : s.Tidy size) (hinside : s.isInside offset = false) (group : String) :
    (s.follow offset group).Tidy size ∧ s.Follows (s.follow offset group) := by
  obtain ⟨labels, _, _, _, hfollow⟩ := s.follow_eq offset group
  rw [hfollow]
  split
  · exact ⟨⟨h.within, h.apart, h.reached, h.clear, h.queue, h.nodup⟩,
      ⟨rfl, List.Subset.refl _, fun _ => .inl, rfl⟩⟩
  · rename_i hnew
    simp only [Bool.or_eq_true, not_or, Bool.not_eq_true] at hnew
    obtain ⟨hdecoded, hqueued⟩ := hnew
    have hnot : offset ∉ s.queued := fun hmem => by simp [isQueued, hmem] at hqueued
    refine ⟨⟨h.within, h.apart, ?_, ?_, ?_, ?_⟩, rfl, List.subset_cons_self .., ?_, rfl⟩
    · intro code hcode
      exact (h.reached code hcode).imp_left (List.mem_cons_of_mem _)
    · exact List.forall_mem_cons.2 ⟨h.clear_of_isInside hinside, h.clear⟩
    · refine List.forall_mem_append.2 ⟨fun task htask => ?_, List.forall_mem_singleton.2 ?_⟩
      · exact ⟨.tail _ (h.queue task htask).1, (h.queue task htask).2⟩
      · exact ⟨.head _, hdecoded⟩
    · rw [List.map_append, List.map_singleton]
      refine List.nodup_append.2 ⟨h.nodup, List.pairwise_singleton _ _, ?_⟩
      rintro _ hold _ hadded rfl
      -- The offsets in the queue were queued, and this one was not.
      obtain ⟨task, htask, heq⟩ := List.mem_map.1 hold
      rw [List.mem_singleton.1 hadded] at heq
      have hmem := (h.queue task htask).1
      rw [heq] at hmem
      exact hnot hmem
    · intro task htask
      rcases List.mem_append.1 htask with htask | htask
      · exact .inl htask
      · rw [List.mem_singleton.1 htask]
        exact .inr hnot

theorem Tidy.operand (h : s.Tidy size) (mode : Mode) (base : UInt32) (param : Param)
    (bytes : List UInt8) :
    (s.operand mode base param bytes).2.Tidy size ∧
      s.Follows (s.operand mode base param bytes).2 := by
  simp only [State.operand]
  split
  · split
    · rename_i hfollow
      exact h.follow (by simpa using hfollow.2.2) _
    · exact ⟨h, .refl s⟩
  · exact ⟨h, .refl s⟩

theorem Tidy.operands (h : s.Tidy size) (mode : Mode) (base : UInt32) (bytes : List UInt8)
    (params : List Param) :
    (State.operands mode base bytes params s).2.Tidy size ∧
      s.Follows (State.operands mode base bytes params s).2 := by
  induction params generalizing s with
  | nil => exact ⟨h, .refl s⟩
  | cons param params ih =>
    obtain ⟨hfirst, hfollows⟩ := h.operand mode base param (paramBytes param bytes)
    obtain ⟨hrest, hmore⟩ := ih hfirst
    exact ⟨hrest, hfollows.trans hmore⟩

/-! ## Decoding a code -/

theorem start_ne_of_not_isDecoded (hnew : s.isDecoded offset = false) {code : UInt32 × UInt32}
    (hcode : code ∈ s.decoded) : code.1.toNat ≠ offset.toNat := by
  intro heq
  have hdecoded := isDecoded_iff.2 ⟨code, hcode, UInt32.toNat_inj.1 heq⟩
  rw [hnew] at hdecoded
  exact Bool.false_ne_true hdecoded

/-- No decoded code starts inside a new one: the first one that did would start at an offset of the
    queue, or where a code ends that reaches over the start of the new one. -/
theorem Tidy.not_between (h : s.Tidy size) {cursor stop : UInt32} (hclear : s.Clear cursor)
    (hnew : s.isDecoded cursor = false)
    (hfree : ∀ o ∈ s.queued, ¬ (cursor.toNat < o.toNat ∧ o.toNat < stop.toNat))
    {code : UInt32 × UInt32} (hcode : code ∈ s.decoded) :
    ¬ (cursor.toNat < code.1.toNat ∧ code.1.toNat < stop.toNat) := by
  -- By strong induction on the start of the code.
  induction hn : code.1.toNat using Nat.strongRecOn generalizing code with
  | ind n ih =>
    subst hn
    rintro ⟨hlt, hstop⟩
    rcases h.reached code hcode with hqueued | ⟨before, hbefore, hend⟩
    · exact hfree _ hqueued ⟨hlt, hstop⟩
    · have hwithin := (h.within before hbefore).1
      have hearlier := ih before.1.toNat (by rw [← hend]; exact hwithin) hbefore rfl
      have hne := start_ne_of_not_isDecoded hnew hbefore
      rcases hclear before hbefore with hle | hle
      · rw [hend] at hwithin
        omega
      · rw [hend] at hle
        omega

/-- One more code lies apart from all others. -/
theorem Tidy.push (h : s.Tidy size) {cursor stop : UInt32} (hclear : s.Clear cursor)
    (hreached : s.Reached cursor) (hnew : s.isDecoded cursor = false)
    (hfree : ∀ o ∈ s.queued, ¬ (cursor.toNat < o.toNat ∧ o.toNat < stop.toNat))
    (htaken : ∀ task ∈ s.queue, task.offset ≠ cursor) (hlt : cursor.toNat < stop.toNat)
    (hle : stop.toNat ≤ size) :
    Tidy size { s with decoded := (cursor, stop) :: s.decoded } where
  within := List.forall_mem_cons.2 ⟨⟨hlt, hle⟩, h.within⟩
  apart := by
    refine List.pairwise_cons.2 ⟨fun code hcode => ?_, h.apart⟩
    have hbetween := h.not_between hclear hnew hfree hcode
    have hne := start_ne_of_not_isDecoded hnew hcode
    have hclear := hclear code hcode
    simp only [bytesOf, Interval.Apart]
    omega
  reached := by
    have hmore : ∀ o, s.Reached o → Reached { s with decoded := (cursor, stop) :: s.decoded } o := by
      rintro o (hqueued | ⟨code, hcode, hend⟩)
      · exact .inl hqueued
      · exact .inr ⟨code, .tail _ hcode, hend⟩
    exact List.forall_mem_cons.2 ⟨hmore _ hreached, fun code hcode => hmore _ (h.reached code hcode)⟩
  clear o ho := by
    have hout := hfree o ho
    refine List.forall_mem_cons.2 ⟨?_, h.clear o ho⟩
    simp only
    omega
  queue task htask := by
    obtain ⟨hqueued, hdecoded⟩ := h.queue task htask
    refine ⟨hqueued, ?_⟩
    simp only [isDecoded, List.any_cons, Bool.or_eq_false_iff, beq_eq_false_iff_ne] at hdecoded ⊢
    exact ⟨(htaken task htask).symm, hdecoded⟩
  nodup := h.nodup

/-- A decoding that has come to an offset in the block from `start` on. -/
structure Stands (s : State) (start cursor : UInt32) : Prop where
  queued : start ∈ s.queued
  taken : ∀ task ∈ s.queue, task.offset ≠ start
  le : start.toNat ≤ cursor.toNat
  fresh : cursor = start → s.isDecoded start = false
  clear : s.Clear cursor
  reached : s.Reached cursor

/-- The decoding comes to the end of the code it has just read. -/
theorem Stands.advance {start cursor stop : UInt32} (h : s.Stands start cursor)
    (hpushed : Tidy size { s with decoded := (cursor, stop) :: s.decoded })
    (hfollows : Follows { s with decoded := (cursor, stop) :: s.decoded } t)
    (hlt : cursor.toNat < stop.toNat) : t.Stands start stop where
  queued := hfollows.queued h.queued
  taken task htask heq := by
    -- The offsets that the operands added were not queued, and the start of the block was.
    rcases hfollows.queue task htask with hold | hnot
    · exact h.taken task hold heq
    · exact hnot (heq ▸ h.queued)
  le := Nat.le_trans h.le (Nat.le_of_lt hlt)
  fresh heq := by
    have := congrArg UInt32.toNat heq
    have := h.le
    omega
  clear other hother := by
    -- The other codes end before the new one, or start after it.
    rw [hfollows.decoded] at hother
    rcases List.mem_cons.1 hother with rfl | hother
    · exact .inr (Nat.le_refl _)
    · have happart := (List.pairwise_cons.1 hpushed.apart).1 other hother
      simp only [bytesOf, Interval.Apart] at happart
      omega
  reached := .inr ⟨_, by rw [hfollows.decoded]; exact .head _, rfl⟩

end State

/-- A decoding between blocks whose codes are those of its blocks. -/
structure State.Listed (size : Nat) (s : State) : Prop where
  tidy : s.Tidy size
  decoded : s.decoded = ((s.blocks.toList.flatMap Block.lines).map Line.extent).reverse

/-! ## Blocks -/

/-- Where a block does not end, no code starts yet, and no other block will. -/
theorem State.Stands.not_known {c : Context} {s : State} {size : Nat} {start cursor : UInt32}
    (hstands : s.Stands start cursor) (h : s.Tidy size)
    (hgo : c.isKnownEnd s start cursor = false) :
    s.isDecoded cursor = false ∧ ∀ task ∈ s.queue, task.offset ≠ cursor := by
  simp only [Context.isKnownEnd, Bool.or_eq_false_iff, Bool.and_eq_false_iff,
    bne_eq_false_iff_eq] at hgo
  rcases hgo.1 with rfl | ⟨hnew, hnot⟩
  · exact ⟨hstands.fresh rfl, hstands.taken⟩
  · refine ⟨hnew, ?_⟩
    rintro task htask rfl
    rw [State.isQueued_iff.2 (h.queue task htask).1] at hnot
    simp at hnot

/-- A code that was found lies in the image, so its end does not wrap around. -/
theorem Target.toNat_codeEnd {t : Target} (hsize : t.image.size < 2 ^ 32) {cursor : UInt32}
    {group : Option String} {code : Code} (hbest : t.best? cursor group = some code) :
    (codeEnd cursor code).toNat = cursor.toNat + code.length ∧
      cursor.toNat + code.length ≤ t.image.size := by
  obtain ⟨_, bytes, hread, _⟩ := Target.of_accepts (Target.of_best? hbest).2
  have hin := (Image.of_read? hread).2.1
  refine ⟨?_, hin⟩
  rw [codeEnd, UInt32.toNat_add, UInt32.toNat_ofNat', Nat.mod_eq_of_lt (a := code.length) (by omega),
    Nat.mod_eq_of_lt (by omega)]

namespace Context

variable {c : Context} {s : State} (hsize : c.image.size < 2 ^ 32)
  (hcodes : ∀ code ∈ c.codes, 1 ≤ code.length)

include hsize hcodes

/-- A code that is decoded lies apart from all others, and the decoding has come to its end. -/
theorem decode_tidy {start cursor : UInt32} {group : Option String} {code : Code} {line : Line}
    {next : State} (h : s.Tidy c.image.size) (hstands : s.Stands start cursor)
    (hgo : c.isKnownEnd s start cursor = false) (hbest : c.best? cursor group = some code)
    (hfree : (s.queued.any fun offset => cursor < offset && offset < codeEnd cursor code) = false)
    (hdecode : c.decode s cursor code = (line, next)) :
    next.Tidy c.image.size ∧ next.Stands start (codeEnd cursor code) ∧
      next.decoded = line.extent :: s.decoded ∧ next.blocks = s.blocks := by
  obtain ⟨hmem, haccepts⟩ := Target.of_best? hbest
  obtain ⟨_, bytes, hread, _⟩ := Target.of_accepts haccepts
  obtain ⟨hend, hin⟩ := Target.toNat_codeEnd hsize hbest
  have hpos := hcodes code hmem
  have hbetween : ∀ o ∈ s.queued,
      ¬ (cursor.toNat < o.toNat ∧ o.toNat < (codeEnd cursor code).toNat) := by
    intro o ho
    have hout := List.any_eq_false.1 hfree o ho
    simpa [UInt32.lt_iff_toNat_lt] using hout
  obtain ⟨hnew, htaken⟩ := hstands.not_known h hgo
  have hpushed := h.push hstands.clear hstands.reached hnew hbetween htaken (by omega) (by omega)
  obtain ⟨htidy, hfollows⟩ := hpushed.operands c.mode c.pointerBase bytes code.params
  simp only [decode, hread, Option.getD_some, Prod.mk.injEq] at hdecode
  obtain ⟨rfl, rfl⟩ := hdecode
  exact ⟨htidy, hstands.advance hpushed hfollows (by omega), hfollows.decoded, hfollows.blocks⟩

/-- Decoding the rest of a block keeps codes apart, and every code becomes a line. -/
theorem lines_tidy {start cursor : UInt32} (h : s.Tidy c.image.size)
    (hstands : s.Stands start cursor) (group : Option String) :
    (c.lines start group cursor s).2.Tidy c.image.size ∧
      (c.lines start group cursor s).2.decoded =
        ((c.lines start group cursor s).1.map Line.extent).reverse ++ s.decoded ∧
      (c.lines start group cursor s).2.blocks = s.blocks := by
  have hlogged : ∀ {s : State} (log : Log), s.Tidy c.image.size →
      State.Tidy c.image.size { s with log } := fun log h =>
    ⟨h.within, h.apart, h.reached, h.clear, h.queue, h.nodup⟩
  -- The same cases as in `lines_spec`.
  fun_induction Context.lines c start group cursor s with
  | case1 cursor s hk => exact ⟨h, rfl, rfl⟩
  | case2 cursor s hk hlimit | case3 cursor s hk hlimit hbest => exact ⟨hlogged _ h, rfl, rfl⟩
  | case4 cursor s hk hlimit code hbest hover => exact ⟨h, rfl, rfl⟩
  | case5 cursor s hk hlimit code hbest hover line next hdecode hgo rest final hrest ih =>
    obtain ⟨htidy, hnext, hdecoded, hblocks⟩ := decode_tidy hsize hcodes h hstands
      (Bool.eq_false_iff.2 hk) hbest (Bool.eq_false_iff.2 hover) hdecode
    have hlater := ih htidy hnext
    rw [hrest] at hlater
    obtain ⟨hlast, hmore, hsame⟩ := hlater
    refine ⟨hlast, ?_, hsame.trans hblocks⟩
    rw [hmore, hdecoded, List.map_cons, List.reverse_cons, List.append_assoc, List.singleton_append]
  | case6 cursor s hk hlimit code hbest hover line next hdecode hgo =>
    obtain ⟨htidy, _, hdecoded, hblocks⟩ := decode_tidy hsize hcodes h hstands
      (Bool.eq_false_iff.2 hk) hbest (Bool.eq_false_iff.2 hover) hdecode
    exact ⟨htidy, hdecoded, hblocks⟩

/-- Decoding a block of the queue. -/
theorem block_listed (h : s.Listed c.image.size) {task : Task} {queue : List Task}
    (hqueue : s.queue = task :: queue) :
    (c.block { s with queue } task).Listed c.image.size := by
  obtain ⟨hfirst, hrest⟩ := List.forall_mem_cons.1 (hqueue ▸ h.tidy.queue)
  have hnodup := h.tidy.nodup
  rw [hqueue, List.map_cons, List.nodup_cons] at hnodup
  have htidy : State.Tidy c.image.size { s with queue } :=
    ⟨h.tidy.within, h.tidy.apart, h.tidy.reached, h.tidy.clear, hrest, hnodup.2⟩
  have hstands : State.Stands { s with queue } task.offset task.offset :=
    { queued := hfirst.1
      taken := fun other hother heq => hnodup.1 (heq ▸ List.mem_map_of_mem hother)
      le := Nat.le_refl _
      fresh := fun _ => hfirst.2
      clear := h.tidy.clear _ hfirst.1
      reached := .inl hfirst.1 }
  obtain ⟨hlast, hdecoded, hblocks⟩ := lines_tidy hsize hcodes htidy hstands task.group
  unfold block
  generalize c.lines task.offset task.group task.offset { s with queue } = result at *
  obtain ⟨lines, final⟩ := result
  refine ⟨⟨hlast.within, hlast.apart, hlast.reached, hlast.clear, hlast.queue, hlast.nodup⟩, ?_⟩
  simp only at hdecoded hblocks
  simp only [hdecoded, hblocks, h.decoded, Array.toList_push, List.flatMap_append,
    List.flatMap_singleton, List.map_append, List.reverse_append]

/-- The codes of a finished decoding lie apart. -/
theorem run_listed (task : Task) (log : Log) : (c.run task log).Listed c.image.size := by
  refine blocks_induction (block_listed hsize hcodes) ⟨⟨?_, ?_, ?_, ?_, ?_, ?_⟩, ?_⟩ _ <;>
    simp [State.Clear, State.isDecoded]

end Context

end CartScript.Listing
