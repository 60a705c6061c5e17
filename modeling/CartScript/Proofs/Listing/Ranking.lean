import CartScript.Proofs.Listing.Stops
import CartScript.Proofs.Registry.Reached

/-!
# The rank of codes, and further codes

Of the codes that may stand at an offset, the one of the highest rank is taken.  No two codes of a
registry are of the same rank, so the choice is determined by the codes alone, whatever their order.

Further codes of lower priority are taken only where no other code may stand.  So a listing in which no
code is missing stays as it is.
-/

namespace CartScript.Listing

/-! ## The highest rank -/

variable {codes : List Code} {c d : Code}

theorem outranks_iff :
    outranks c d = true ↔ d.priority < c.priority ∨ d.priority = c.priority ∧
      (d.idLength < c.idLength ∨ d.idLength = c.idLength ∧ c.index < d.index) := by
  simp [outranks]

theorem outranks_trans {e : Code} (h : outranks c d = true) (h' : outranks d e = true) :
    outranks c e = true := by
  rw [outranks_iff] at h h' ⊢
  omega

theorem not_outranks_of_outranks (h : outranks c d = true) : outranks d c = false := by
  rw [← Bool.not_eq_true, outranks_iff]
  rw [outranks_iff] at h
  omega

/-- Codes at different places are never of the same rank. -/
theorem outranks_of_not_outranks (hne : c.index ≠ d.index) (h : outranks c d = false) :
    outranks d c = true := by
  rw [← Bool.not_eq_true, outranks_iff] at h
  rw [outranks_iff]
  omega

theorem highest?_eq_none_iff : highest? codes = none ↔ codes = [] := by
  cases codes with
  | nil => simp [highest?]
  | cons c codes =>
    simp only [highest?, reduceCtorEq, iff_false]
    split
    · simp
    · split <;> simp

/-- The codes stand in the order of their places. -/
def InOrder (codes : List Code) : Prop := codes.Pairwise fun c d => c.index < d.index

theorem InOrder.index_lt_iff (h : InOrder codes) {i j : Nat} (hi : i < codes.length)
    (hj : j < codes.length) : codes[i].index < codes[j].index ↔ i < j := by
  have hpairwise := List.pairwise_iff_getElem.1 h
  refine ⟨fun hlt => ?_, hpairwise i j hi hj⟩
  by_contra hle
  rcases Nat.eq_or_lt_of_not_lt hle with rfl | hgt
  · exact Nat.lt_irrefl _ hlt
  · exact Nat.lt_asymm hlt (hpairwise j i hj hi hgt)

/-- The code that is found is of the highest rank. -/
theorem outranks_of_highest? (horder : InOrder codes) (h : highest? codes = some c) :
    ∀ d ∈ codes, d ≠ c → outranks c d = true := by
  induction codes generalizing c with
  | nil => simp [highest?] at h
  | cons first codes ih =>
    obtain ⟨hfirst, hrest⟩ := List.pairwise_cons.1 horder
    simp only [highest?] at h
    split at h
    · rename_i hnone
      rw [highest?_eq_none_iff.1 hnone]
      obtain rfl := Option.some.inj h
      simp
    · rename_i best hbest
      have hbelow := ih hrest hbest
      split at h
      · rename_i hahead
        obtain rfl := Option.some.inj h
        exact List.forall_mem_cons.2 ⟨fun _ => hahead, hbelow⟩
      · rename_i hbehind
        obtain rfl := Option.some.inj h
        -- The first code comes before the best of the others, and so before all of them.
        have hne := Nat.ne_of_gt (hfirst best (Target.mem_of_highest? hbest))
        have hahead := outranks_of_not_outranks hne (Bool.not_eq_true _ ▸ hbehind)
        refine List.forall_mem_cons.2 ⟨fun hself => absurd rfl hself, fun d hd _ => ?_⟩
        by_cases heq : d = best
        · rw [heq]
          exact hahead
        · exact outranks_trans hahead (hbelow d hd heq)

/-- `highest?` gives the code of the highest rank. -/
theorem highest?_eq_some_iff (horder : InOrder codes) :
    highest? codes = some c ↔ c ∈ codes ∧ ∀ d ∈ codes, d ≠ c → outranks c d = true := by
  refine ⟨fun h => ⟨Target.mem_of_highest? h, outranks_of_highest? horder h⟩, fun ⟨hc, hahead⟩ => ?_⟩
  cases hbest : highest? codes with
  | none => simp [highest?_eq_none_iff.1 hbest] at hc
  | some best =>
    by_contra hne
    have hne : best ≠ c := fun heq => hne (congrArg some heq)
    have hbehind := not_outranks_of_outranks (hahead best (Target.mem_of_highest? hbest) hne)
    rw [outranks_of_highest? horder hbest c hc hne.symm] at hbehind
    contradiction

/-! ## The codes that may stand at an offset -/

/-- A code that may stand at an offset. -/
structure Candidate (t : Target) (offset : UInt32) (group : Option String) (code : Code) : Prop where
  known : code ∈ t.codes
  listed : code.listed = true
  group : ∀ name, group = some name → code.group = name
  within : offset.toNat + code.length ≤ t.image.size
  aligned : offset.toNat % max code.align.toNat 1 = 0
  matchesId : code.matchesId (t.image.extract offset.toNat (offset.toNat + code.length)).toList = true
  blank : ∀ i < code.length, code.covers i = false → t.image[offset.toNat + i]? = some 0
  structs : ∀ p ∈ code.params, p.kind.isStruct = true →
    let raw := Encoding.readUnsigned
      (paramBytes p (t.image.extract offset.toNat (offset.toNat + code.length)).toList)
    raw = 0 ∨ ∃ target, Encoding.unpointer? raw t.pointerBase = some target ∧
      target.toNat < t.image.size

namespace Target

variable {t : Target} {offset : UInt32} {group : Option String} {code : Code}

theorem holds_iff {raw : Nat} : t.holds raw = true ↔ raw = 0 ∨
    ∃ target, Encoding.unpointer? raw t.pointerBase = some target ∧ target.toNat < t.image.size := by
  simp [holds, Option.any_eq_true]

theorem mem_zipIdx_extract {image : Image} {start size : Nat} (hwithin : start + size ≤ image.size)
    {pair : UInt8 × Nat} :
    pair ∈ (image.extract start (start + size)).toList.zipIdx ↔
      pair.2 < size ∧ image[start + pair.2]? = some pair.1 := by
  rw [List.mem_zipIdx_iff_getElem?, Array.getElem?_toList, Array.getElem?_extract,
    Nat.min_eq_left hwithin, Nat.add_sub_cancel_left]
  split <;> simp [*]

theorem fits_extract_iff (hwithin : offset.toNat + code.length ≤ t.image.size) :
    let bytes := (t.image.extract offset.toNat (offset.toNat + code.length)).toList
    t.fits code bytes = true ↔ code.matchesId bytes = true ∧
      (∀ i < code.length, code.covers i = false → t.image[offset.toNat + i]? = some 0) ∧
      ∀ p ∈ code.params, p.kind.isStruct = true →
        let raw := Encoding.readUnsigned (paramBytes p bytes)
        raw = 0 ∨ ∃ target, Encoding.unpointer? raw t.pointerBase = some target ∧
          target.toNat < t.image.size := by
  intro bytes
  have hblank : bytes.zipIdx.all (fun pair => code.covers pair.2 || pair.1 == 0) = true ↔
      ∀ i < code.length, code.covers i = false → t.image[offset.toNat + i]? = some 0 := by
    simp only [List.all_eq_true, Bool.or_eq_true, beq_iff_eq]
    constructor
    · intro hall i hi hcovers
      have hin : offset.toNat + i < t.image.size := by omega
      have hbyte := hall (t.image[offset.toNat + i], i)
        ((mem_zipIdx_extract hwithin).2 ⟨hi, Array.getElem?_eq_getElem hin⟩)
      rw [Array.getElem?_eq_getElem hin]
      exact congrArg some (hbyte.resolve_left (by simp [hcovers]))
    · intro hzero pair hpair
      obtain ⟨hi, hbyte⟩ := (mem_zipIdx_extract hwithin).1 hpair
      cases hcovers : code.covers pair.2 with
      | true => exact .inl rfl
      | false => exact .inr (Option.some.inj (hbyte.symm.trans (hzero _ hi hcovers)))
  simp only [fits, Bool.and_eq_true, hblank, List.all_eq_true, List.mem_filter, holds_iff, and_imp,
    and_assoc]

/-- Codes are accepted where they may stand. -/
theorem accepts_iff :
    code ∈ t.codes ∧ t.accepts offset group code = true ↔ Candidate t offset group code := by
  simp only [accepts, Image.read?, Bool.and_eq_true, beq_iff_eq, Option.all_eq_true]
  constructor
  · rintro ⟨hknown, ⟨⟨hlisted, hgroup⟩, haligned⟩, hany⟩
    split at hany
    · rename_i hwithin
      obtain ⟨hid, hblank, hstructs⟩ := (fits_extract_iff hwithin).1 hany
      exact ⟨hknown, hlisted, hgroup, hwithin, haligned, hid, hblank, hstructs⟩
    · simp at hany
  · intro h
    rw [if_pos h.within]
    exact ⟨h.known, ⟨⟨h.listed, h.group⟩, h.aligned⟩,
      (fits_extract_iff h.within).2 ⟨h.matchesId, h.blank, h.structs⟩⟩

theorem best?_eq_none_iff :
    t.best? offset group = none ↔ ∀ code, ¬ Candidate t offset group code := by
  simp only [best?, highest?_eq_none_iff, List.filter_eq_nil_iff, ← accepts_iff, not_and]

theorem best?_eq_some_iff (horder : InOrder t.codes) :
    t.best? offset group = some code ↔ Candidate t offset group code ∧
      ∀ other, Candidate t offset group other → other ≠ code → outranks code other = true := by
  have hfiltered : InOrder (t.codes.filter (t.accepts offset group)) := List.Pairwise.filter _ horder
  simp only [best?, highest?_eq_some_iff hfiltered, List.mem_filter, accepts_iff]

end Target

end CartScript.Listing

namespace CartScript

/-! ## Further codes -/

/-- A registry that has the codes of another one in their order, and further ones of lower priority than
    all of these. -/
structure Registry.Overlays (s r : Registry) (further : Code → Bool) : Prop where
  kept : (s.codes.toList.filter fun c => !further c).map Code.bare = r.codes.toList.map Code.bare
  lower : ∀ d ∈ s.codes, further d = true → ∀ c ∈ r.codes, d.priority < c.priority

/-- The codes of a well-formed registry stand in the order of their places. -/
theorem Registry.WellFormed.inOrder {r : Registry} (h : r.WellFormed) :
    Listing.InOrder r.codes.toList := by
  refine List.pairwise_iff_getElem.2 fun i j hi hj hlt => ?_
  have hindex : ∀ k (hk : k < r.codes.toList.length), r.codes.toList[k].index = k := fun k hk =>
    (h.codes k _ (by simp [Registry.at?])).2
  rw [hindex i hi, hindex j hj]
  exact hlt

/-- Codes that differ in their places and origins only. -/
theorem Code.eq_of_bare {c d : Code} (h : c.bare = d.bare) :
    c = { d with index := c.index, origin := c.origin } := by
  obtain ⟨⟩ := c
  obtain ⟨⟩ := d
  simpa [bare] using h

/-- What does not look at places and origins selects the same codes. -/
theorem Code.map_bare_filter {p : Code → Bool} (hp : ∀ c, p c.bare = p c) (codes : List Code) :
    (codes.filter p).map bare = (codes.map bare).filter p := by
  rw [List.filter_map]
  congr 2
  exact funext fun c => (hp c).symm

namespace Listing

/-- Rank depends on the place only between codes that are alike otherwise. -/
theorem outranks_of_bare {c d c' d' : Code} (hc : c'.bare = c.bare) (hd : d'.bare = d.bare)
    (hindex : c.index < d.index → c'.index < d'.index) (h : outranks c d = true) :
    outranks c' d' = true := by
  rw [outranks_iff] at h ⊢
  rw [Code.eq_of_bare hc, Code.eq_of_bare hd]
  dsimp only
  omega

/-- Further codes of lower priority do not change which code is of the highest rank. -/
theorem exists_highest?_of_overlay {codes more : List Code} {further : Code → Bool}
    (hcodes : InOrder codes) (hmore : InOrder more)
    (hkept : (more.filter fun c => !further c).map Code.bare = codes.map Code.bare)
    (hlower : ∀ d ∈ more, further d = true → ∀ c ∈ codes, d.priority < c.priority) {c : Code}
    (h : highest? codes = some c) : ∃ c', highest? more = some c' ∧ c'.bare = c.bare := by
  obtain ⟨hc, hahead⟩ := (highest?_eq_some_iff hcodes).1 h
  have hkeptOrder : InOrder (more.filter fun c => !further c) := List.Pairwise.filter _ hmore
  generalize hk : (more.filter fun c => !further c) = kept at hkept hkeptOrder
  have hlength : kept.length = codes.length := by simpa using congrArg List.length hkept
  -- The codes that are kept are those of the shorter list, place by place.
  have hbare : ∀ k (h : k < kept.length) (h' : k < codes.length), kept[k].bare = codes[k].bare := by
    intro k h h'
    have := congrArg (fun l => l[k]?) hkept
    simpa [h, h'] using this
  obtain ⟨i, hi, rfl⟩ := List.mem_iff_getElem.1 hc
  have hi' : i < kept.length := by omega
  have hmem : ∀ d, d ∈ kept ↔ d ∈ more ∧ further d = false := by
    intro d
    rw [← hk, List.mem_filter, Bool.not_eq_true']
  refine ⟨kept[i], (highest?_eq_some_iff hmore).2 ⟨?_, fun d hd hne => ?_⟩, hbare i hi' hi⟩
  · exact ((hmem _).1 (List.getElem_mem hi')).1
  · cases hfurther : further d with
    | true =>
      -- Priority comes first in the rank, so the id and the place do not matter.
      have hpriority := hlower d hd hfurther _ hc
      rw [outranks_iff, Code.eq_of_bare (hbare i hi' hi)]
      exact .inl hpriority
    | false =>
      obtain ⟨j, hj, rfl⟩ := List.mem_iff_getElem.1 ((hmem d).2 ⟨hd, hfurther⟩)
      have hj' : j < codes.length := by omega
      have hij : codes[j] ≠ codes[i] := by
        intro heq
        rcases Nat.lt_trichotomy i j with hlt | rfl | hlt
        · exact absurd ((hcodes.index_lt_iff hi hj').2 hlt) (by simp [heq])
        · exact hne rfl
        · exact absurd ((hcodes.index_lt_iff hj' hi).2 hlt) (by simp [heq])
      -- Two kept codes have other places than before, but in the same order.
      refine outranks_of_bare (hbare i hi' hi) (hbare j hj hj') (fun hlt => ?_)
        (hahead _ (List.getElem_mem hj') hij)
      exact (hkeptOrder.index_lt_iff hi' hj).2 ((hcodes.index_lt_iff hi hj').1 hlt)

/-! ## What is decoded -/

def Line.bare (line : Line) : Line := { line with code := line.code.bare }

def Block.bare (b : Block) : Block := { b with lines := b.lines.map Line.bare }

/-- A listing shows neither places nor origins of codes. -/
theorem render_of_bare {blocks others : List Block} (base : UInt32) (labels : List UInt32)
    (h : others.map Block.bare = blocks.map Block.bare) :
    render base labels others = render base labels blocks := by
  have htexts : ∀ b : Block, b.bare.texts base labels = b.texts base labels := fun b => by
    simp only [Block.texts, Block.bare, List.flatMap_map]
    rfl
  have hbare : ∀ blocks : List Block,
      render base labels (blocks.map Block.bare) = render base labels blocks := fun blocks => by
    simp only [render, List.map_map, Function.comp_def, htexts]
  rw [← hbare others, h, hbare]

namespace State

/-- The decoding with other blocks. -/
def withBlocks (s : State) (blocks : Array Block) : State := { s with blocks }

variable (s : State) (blocks : Array Block)

theorem withBlocks_queued : (s.withBlocks blocks).queued = s.queued := rfl

theorem follow_withBlocks (offset : UInt32) (group : String) :
    (s.withBlocks blocks).follow offset group = (s.follow offset group).withBlocks blocks := by
  -- A new label or none, and a new task or none.
  by_cases hlabel : s.labels.contains offset = true <;>
    by_cases hknown : (s.isDecoded offset || s.isQueued offset) = true <;>
    simp_all [follow, withBlocks, isDecoded, isQueued]

theorem operand_withBlocks (mode : Mode) (base : UInt32) (param : Param) (bytes : List UInt8) :
    (s.withBlocks blocks).operand mode base param bytes =
      ((s.operand mode base param bytes).1,
        (s.operand mode base param bytes).2.withBlocks blocks) := by
  have hinside : ∀ offset, (s.withBlocks blocks).isInside offset = s.isInside offset := fun _ => rfl
  simp only [operand, hinside]
  split
  · split
    · rw [follow_withBlocks]
    · rfl
  · rfl

theorem operands_withBlocks (mode : Mode) (base : UInt32) (bytes : List UInt8)
    (params : List Param) :
    operands mode base bytes params (s.withBlocks blocks) =
      ((operands mode base bytes params s).1,
        (operands mode base bytes params s).2.withBlocks blocks) := by
  induction params generalizing s with
  | nil => rfl
  | cons param params ih => simp only [operands, operand_withBlocks, ih]

/-- Nothing that was logged after a log says that no code matches. -/
def Matched (log : Log) (s : State) : Prop :=
  ∀ offset, ¬ s.Reported log ⟨.error, .image offset, (ListFault.noMatch offset).message⟩

variable {s} {t : State} {log : Log}

theorem Matched.of_suffix (h : t.Matched log) (hlog : s.log.newest <:+ t.log.newest) :
    s.Matched log :=
  fun offset ⟨before, hbefore, hd⟩ => h offset ⟨before, hbefore, hd.trans hlog⟩

end State

namespace Context

/-- A context that decodes as another one does wherever that one has a code. -/
structure Refines (d c : Context) : Prop where
  image : d.image = c.image
  pointerBase : d.pointerBase = c.pointerBase
  mode : d.mode = c.mode
  sizeLimit : d.sizeLimit = c.sizeLimit
  best : ∀ cursor group code, c.best? cursor group = some code →
    ∃ other, d.best? cursor group = some other ∧ other.bare = code.bare

variable {c d : Context} {s : State} {log : Log}

variable {code other : Code}

theorem Refines.decode (h : d.Refines c) (hbare : other.bare = code.bare) (blocks : Array Block)
    (cursor : UInt32) :
    d.decode (s.withBlocks blocks) cursor other =
      ({ (c.decode s cursor code).1 with code := other }, (c.decode s cursor code).2.withBlocks blocks) := by
  have hlength : other.length = code.length := by rw [Code.eq_of_bare hbare]
  have hparams : other.params = code.params := by rw [Code.eq_of_bare hbare]
  have hoperands := State.operands_withBlocks
    { s with decoded := (cursor, codeEnd cursor code) :: s.decoded } blocks c.mode c.pointerBase
    ((c.image.read? cursor code.length).getD []) code.params
  simp only [Context.decode, codeEnd, h.image, h.mode, h.pointerBase, hlength, hparams]
  exact congrArg (fun result => ((⟨cursor, other, result.1⟩ : Line), result.2)) hoperands

theorem Refines.isKnownEnd (h : d.Refines c) (blocks : Array Block) (start cursor : UInt32) :
    d.isKnownEnd (s.withBlocks blocks) start cursor = c.isKnownEnd s start cursor := by
  simp only [Context.isKnownEnd, h.image]
  rfl

theorem codeEnd_of_bare (cursor : UInt32) (hbare : other.bare = code.bare) :
    codeEnd cursor other = codeEnd cursor code := by
  rw [Code.eq_of_bare hbare]
  rfl

theorem bare_of_decode {cursor : UInt32} {next : State} {line : Line}
    (h : c.decode s cursor code = (line, next)) (hbare : other.bare = code.bare) :
    Line.bare { line with code := other } = line.bare := by
  simp only [Line.bare, hbare, (line_of_decode h).2]

/-- A block in which no code is missing is decoded in the same way, except for the places and origins
    of its codes. -/
theorem lines_refines (h : d.Refines c) (blocks : Array Block) (start : UInt32)
    (group : Option String) (cursor : UInt32) (hlog : log.newest <:+ s.log.newest)
    (hmatched : (c.lines start group cursor s).2.Matched log) :
    (d.lines start group cursor (s.withBlocks blocks)).1.map Line.bare =
        (c.lines start group cursor s).1.map Line.bare ∧
      (d.lines start group cursor (s.withBlocks blocks)).2 =
        (c.lines start group cursor s).2.withBlocks blocks := by
  -- Both loops take the same branch, since all that they look at is the same.
  fun_induction Context.lines c start group cursor s with
  | case1 cursor s hk =>
    rw [Context.lines, dif_pos ((h.isKnownEnd ..).trans hk)]
    exact ⟨rfl, rfl⟩
  | case2 cursor s hk hlimit =>
    rw [Context.lines, dif_neg (by rwa [h.isKnownEnd]), h.sizeLimit, if_pos hlimit]
    exact ⟨rfl, rfl⟩
  | case3 cursor s hk hlimit hbest => exact absurd ⟨_, hlog, List.suffix_rfl⟩ (hmatched cursor)
  | case4 cursor s hk hlimit code hbest hover =>
    obtain ⟨other, hother, hbare⟩ := h.best cursor group code hbest
    rw [Context.lines, dif_neg (by rwa [h.isKnownEnd]), h.sizeLimit, if_neg hlimit]
    simp only [hother, codeEnd_of_bare cursor hbare, State.withBlocks_queued]
    rw [if_pos hover]
    exact ⟨rfl, rfl⟩
  | case5 cursor s hk hlimit code hbest hover line next hdecode hgo rest final hrest ih =>
    obtain ⟨other, hother, hbare⟩ := h.best cursor group code hbest
    obtain ⟨hlines, hstate⟩ := ih (hlog.trans (extends_decode hdecode).log) (hrest ▸ hmatched)
    have hterminates : other.terminates = code.terminates := by rw [Code.eq_of_bare hbare]
    rw [Context.lines, dif_neg (by rwa [h.isKnownEnd]), h.sizeLimit, if_neg hlimit]
    simp only [hother, codeEnd_of_bare cursor hbare, hterminates, h.decode hbare blocks cursor, hdecode,
      State.withBlocks_queued]
    rw [if_neg hover, dif_pos hgo]
    rw [hrest] at hlines hstate
    exact ⟨congrArg₂ List.cons (bare_of_decode hdecode hbare) hlines, hstate⟩
  | case6 cursor s hk hlimit code hbest hover line next hdecode hgo =>
    obtain ⟨other, hother, hbare⟩ := h.best cursor group code hbest
    have hterminates : other.terminates = code.terminates := by rw [Code.eq_of_bare hbare]
    rw [Context.lines, dif_neg (by rwa [h.isKnownEnd]), h.sizeLimit, if_neg hlimit]
    simp only [hother, codeEnd_of_bare cursor hbare, hterminates, h.decode hbare blocks cursor, hdecode,
      State.withBlocks_queued]
    rw [if_neg hover, dif_neg hgo]
    exact ⟨congrArg (fun line => [line]) (bare_of_decode hdecode hbare), rfl⟩

/-- Blocks are decoded one after the other, and the log only grows. -/
theorem log_suffix_blocks (c : Context) (count : Nat) (s : State) :
    s.log.newest <:+ (c.blocks count s).log.newest := by
  refine blocks_induction (P := fun t => s.log.newest <:+ t.log.newest) ?_ List.suffix_rfl count
  intro t ht task queue _
  exact ht.trans (extends_lines c task.offset task.group task.offset { t with queue }).log

theorem block_refines (h : d.Refines c) {others : Array Block}
    (hothers : others.toList.map Block.bare = s.blocks.toList.map Block.bare) (task : Task)
    (hlog : log.newest <:+ s.log.newest) (hmatched : (c.block s task).Matched log) :
    ∃ blocks : Array Block, d.block (s.withBlocks others) task = (c.block s task).withBlocks blocks ∧
      blocks.toList.map Block.bare = (c.block s task).blocks.toList.map Block.bare := by
  obtain ⟨hlines, hstate⟩ := lines_refines h others task.offset task.group task.offset hlog hmatched
  have hkept := (extends_lines c task.offset task.group task.offset s).blocks
  refine ⟨others.push ⟨task.offset, (d.lines task.offset task.group task.offset
    (s.withBlocks others)).1⟩, ?_, ?_⟩
  · simp only [block, hstate]
    rfl
  · simp only [block, Array.toList_push, List.map_append, List.map_cons, List.map_nil, hkept, hothers,
      Block.bare, hlines]

/-- A decoding in which no code is missing is the same, except for the places and origins of codes. -/
theorem blocks_refines (h : d.Refines c) (count : Nat) (others : Array Block)
    (hothers : others.toList.map Block.bare = s.blocks.toList.map Block.bare)
    (hlog : log.newest <:+ s.log.newest) (hmatched : (c.blocks count s).Matched log) :
    ∃ blocks : Array Block, d.blocks count (s.withBlocks others) = (c.blocks count s).withBlocks blocks ∧
      blocks.toList.map Block.bare = (c.blocks count s).blocks.toList.map Block.bare := by
  induction count generalizing s others with
  | zero => exact ⟨others, rfl, hothers⟩
  | succ count ih =>
    cases hqueue : s.queue with
    | nil =>
      have hqueue' : (s.withBlocks others).queue = [] := hqueue
      simp only [blocks, hqueue, hqueue']
      exact ⟨others, rfl, hothers⟩
    | cons task queue =>
      have hqueue' : (s.withBlocks others).queue = task :: queue := hqueue
      simp only [blocks, hqueue, hqueue'] at hmatched ⊢
      have hblock := hmatched.of_suffix (log_suffix_blocks c count _)
      obtain ⟨pushed, heq, hpushed⟩ :=
        block_refines h (s := { s with queue }) hothers task hlog hblock
      have hnext : log.newest <:+ (c.block { s with queue } task).log.newest :=
        hlog.trans (extends_lines c task.offset task.group task.offset { s with queue }).log
      obtain ⟨blocks, hrest, hblocks⟩ := ih pushed hpushed hnext hmatched
      refine ⟨blocks, ?_, hblocks⟩
      rw [← hrest, ← heq]
      rfl

theorem run_refines (h : d.Refines c) (task : Task) (hmatched : (c.run task log).Matched log) :
    ∃ blocks : Array Block, d.run task log = (c.run task log).withBlocks blocks ∧
      blocks.toList.map Block.bare = (c.run task log).blocks.toList.map Block.bare := by
  unfold run at hmatched ⊢
  rw [h.image]
  exact blocks_refines h _ (s := { queue := [task], queued := [task.offset], log }) #[] rfl
    List.suffix_rfl hmatched

end Context

/-! ## Listings -/

/-- A listing in which no code is missing is the same for a target that has the same codes wherever the
    other one has any. -/
theorem disassemble_refines {t u : Target} {request : Request} {log : Log}
    {reported : List Diagnostic} (himage : u.image = t.image) (hbase : u.pointerBase = t.pointerBase)
    (hbest : ∀ cursor group code, t.best? cursor group = some code →
      ∃ other, u.best? cursor group = some other ∧ other.bare = code.bare)
    (hlog : (disassemble t request log).2.entries = log.entries ++ reported)
    (hmatched : ∀ offset,
      ⟨.error, .image offset, (ListFault.noMatch offset).message⟩ ∉ reported) :
    disassemble u request log = disassemble t request log := by
  simp only [disassemble, himage, hbase] at hlog ⊢
  split at hlog
  · rename_i hout
    rw [if_pos hout, if_pos hout]
  · rename_i hin
    rw [if_neg hin, if_neg hin]
    have hrefines : Context.Refines
        { toTarget := u, mode := request.mode, sizeLimit := request.sizeLimit }
        { toTarget := t, mode := request.mode, sizeLimit := request.sizeLimit } :=
      ⟨himage, hbase, rfl, rfl, hbest⟩
    obtain ⟨blocks, hrun, hblocks⟩ := Context.run_refines hrefines _
      fun offset hreported => hmatched offset (hreported.mem hlog)
    rw [hrun, ← render_of_bare t.pointerBase _ hblocks]
    rfl

/-- Further codes of lower priority leave the choice at every offset where there is one. -/
theorem exists_best?_of_overlays {r s : Registry} (hr : r.WellFormed) (hs : s.WellFormed)
    {further : Code → Bool} (h : s.Overlays r further) (game : String) (image : Image) (base : UInt32)
    {cursor : UInt32} {group : Option String} {code : Code}
    (hbest : Target.best? ⟨image, r.forGame game, base⟩ cursor group = some code) :
    ∃ other, Target.best? ⟨image, s.forGame game, base⟩ cursor group = some other ∧
      other.bare = code.bare := by
  -- Neither condition looks at a place or an origin, so these may be dropped before or after.
  let ofGame : Code → Bool := fun c => c.forGame game
  let accepted : Code → Bool := Target.accepts ⟨image, [], base⟩ cursor group
  have hkept : (((s.forGame game).filter accepted).filter fun c => !further c).map Code.bare =
      ((r.forGame game).filter accepted).map Code.bare := by
    calc (((s.forGame game).filter accepted).filter fun c => !further c).map Code.bare
        = (((s.codes.toList.filter fun c => !further c).filter ofGame).filter accepted).map
            Code.bare := by
          rw [List.filter_comm, Registry.forGame, List.filter_comm _ ofGame]
      _ = (((s.codes.toList.filter fun c => !further c).map Code.bare).filter ofGame).filter
            accepted := by
          rw [Code.map_bare_filter (fun _ => rfl), Code.map_bare_filter (fun _ => rfl)]
      _ = ((r.forGame game).filter accepted).map Code.bare := by
          rw [h.kept, ← Code.map_bare_filter (fun _ => rfl), ← Code.map_bare_filter (fun _ => rfl)]
          rfl
  have hlower : ∀ d ∈ (s.forGame game).filter accepted, further d = true →
      ∀ c ∈ (r.forGame game).filter accepted, d.priority < c.priority := by
    intro d hd hfurther c hc
    have hd := (List.mem_filter.1 (List.mem_filter.1 hd).1).1
    have hc := (List.mem_filter.1 (List.mem_filter.1 hc).1).1
    exact h.lower d (Array.mem_toList_iff.1 hd) hfurther c (Array.mem_toList_iff.1 hc)
  have horder : ∀ {r : Registry}, r.WellFormed → InOrder ((r.forGame game).filter accepted) :=
    fun hr => List.Pairwise.filter _ (List.Pairwise.filter _ hr.inOrder)
  exact exists_highest?_of_overlay (horder hr) (horder hs) hkept hlower hbest

end Listing

namespace Sample

/-- The codes of `units` with further ones before and after them. -/
def overlay : Registry :=
  { codes := #[
      { name := "RAW", id := 0, idLength := 0, length := 4, priority := -1, index := 0
        params := [{ name := "value", offset := 0, length := 4, kind := .int false false }]
        origin := "overlay:1" },
      { name := "CALL", id := 0x11, idLength := 2, length := 12, index := 1, origin := "overlay:3"
        params := [{ name := "unit", offset := 4, length := 4, kind := .struct "unit" 1 },
          { name := "data", offset := 8, length := 4, kind := .pointer 1 }] },
      { name := "END", id := 0x22, idLength := 2, length := 4, terminates := true, index := 2
        origin := "overlay:6" },
      { name := "UNIT", id := 0x33, idLength := 2, length := 12, group := "unit", terminates := true
        params := [{ name := "name", offset := 4, length := 4, kind := .text },
          { name := "at", offset := 8, length := 4, kind := .array 2 true false }]
        index := 3, origin := "overlay:7" },
      { name := "LONG", id := 0x33, idLength := 2, length := 8, group := "unit", priority := -2
        params := [{ name := "rest", offset := 2, length := 6, kind := .int false false }]
        index := 4, origin := "overlay:10" }]
    names := ⟨[("RAW", [0]), ("CALL", [1]), ("END", [2]), ("UNIT", [3]), ("LONG", [4])]⟩ }

theorem overlay_loaded : overlay.Loaded := by
  have h : Registry.loadText {} "overlay" ("RAW, 0, 4, -priority:-1\n  value, 0, 4\n" ++
      "CALL, 0x11, 12\n  unit, 4, 4, -struct:unit\n  data, 8, 4, -pointer\nEND, 0x22, 4, -end\n" ++
      "UNIT, 0x33, 12, -group:unit, -end\n  name, 4, 4, -string\n" ++
      "  at, 8, 4, -coordinates:2, -signed\n" ++
      "LONG, 0x33, 8, -group:unit, -priority:-2\n  rest, 2, 6\n") = .ok overlay := by
    decide +kernel
  exact .text h

theorem overlay_overlays : overlay.Overlays units fun c => c.priority < 0 where
  kept := by decide +kernel
  lower := by decide +kernel

end Sample

namespace Listing

end Listing

end CartScript
