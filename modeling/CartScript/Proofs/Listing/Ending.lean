import CartScript.Proofs.Listing.Labels

/-!
# Decoding comes to its end

The loops of a decoding without a bound on their rounds.  There is no result where a loop goes on for
ever, or where bytes are asked for that are not there.  With the codes of a loaded registry there always
is one, that of `disassemble`: a code takes at least a byte, and no offset is queued twice.
-/

namespace CartScript.Listing

/-! ## The loops -/

/-- The bytes of a parameter, which must be there. -/
def paramBytes? (param : Param) (bytes : List UInt8) : Option (List UInt8) :=
  if param.stop ≤ bytes.length then some ((bytes.take param.stop).drop param.offset) else none

namespace Target

/-- `fits`, where every byte that is looked at must be there. -/
def fits? (t : Target) (code : Code) (bytes : List UInt8) : Option Bool := do
  if !code.matchesId bytes then return false
  let zeros ← (List.range code.length).allM fun i =>
    if code.covers i then some true else bytes[i]?.map (· == 0)
  if !zeros then return false
  (code.params.filter (·.kind.isStruct)).allM fun p =>
    (paramBytes? p bytes).map fun part => t.holds (Encoding.readUnsigned part)

/-- `accepts`, where every byte that is looked at must be there. -/
def accepts? (t : Target) (offset : UInt32) (group : Option String) (code : Code) : Option Bool :=
  if code.listed && group.all (code.group == ·) && offset.toNat + code.length ≤ t.image.size &&
      offset.toNat % max code.align.toNat 1 == 0 then
    (t.image.read? offset code.length).bind (t.fits? code)
  else some false

/-- The codes of some that may stand at an offset, where every byte that is looked at must be there. -/
def accepted? (t : Target) (offset : UInt32) (group : Option String) : List Code → Option (List Code)
  | [] => some []
  | code :: codes => do
    let accepted ← t.accepts? offset group code
    let rest ← t.accepted? offset group codes
    return if accepted then code :: rest else rest

/-- `best?`, where every byte that is looked at must be there. -/
def best?? (t : Target) (offset : UInt32) (group : Option String) : Option (Option Code) :=
  (t.accepted? offset group t.codes).map highest?

end Target

/-- `operands`, where every byte that is looked at must be there. -/
def State.operands? (mode : Mode) (base : UInt32) (bytes : List UInt8) :
    List Param → State → Option (List Operand × State)
  | [], s => some ([], s)
  | param :: params, s => do
    let (first, s) := s.operand mode base param (← paramBytes? param bytes)
    let (rest, s) ← operands? mode base bytes params s
    return (first :: rest, s)

namespace Context

/-- `decode`, where every byte that is looked at must be there. -/
def decode? (c : Context) (s : State) (cursor : UInt32) (code : Code) : Option (Line × State) := do
  let s := { s with decoded := (cursor, codeEnd cursor code) :: s.decoded }
  let bytes ← c.image.read? cursor code.length
  let (operands, s) ← s.operands? c.mode c.pointerBase bytes code.params
  return (⟨cursor, code, operands⟩, s)

/-- The loop of a block, for as long as it goes on. -/
def lines? (c : Context) (start : UInt32) (group : Option String) (cursor : UInt32) (s : State) :
    Option (List Line × State) :=
  if c.isKnownEnd s start cursor then some ([], s)
  else if c.sizeLimit ≤ (cursor - start).toNat then
    let fault := ListFault.sizeLimit start c.sizeLimit
    some ([], { s with log := s.log.warning (.image start) fault.message })
  else do
    match ← c.best?? cursor group with
    | none =>
      let fault := ListFault.noMatch cursor
      return ([], { s with log := s.log.error (.image cursor) fault.message })
    | some code =>
      if s.queued.any fun offset => cursor < offset && offset < codeEnd cursor code then
        return ([], s)
      else
        let (line, s) ← c.decode? s cursor code
        if code.terminates then return ([line], s)
        else
          let (rest, s) ← c |>.lines? start group (codeEnd cursor code) s
          return (line :: rest, s)
partial_fixpoint

/-- The loop of the queue, for as long as it goes on. -/
def blocks? (c : Context) (s : State) : Option State :=
  match s.queue with
  | [] => some s
  | task :: queue => do
    let (lines, s) ← c.lines? task.offset task.group task.offset { s with queue }
    c |>.blocks? { s with blocks := s.blocks.push ⟨task.offset, lines⟩ }
partial_fixpoint

/-- `run` without a bound. -/
def run? (c : Context) (task : Task) (log : Log) : Option State :=
  c.blocks? { queue := [task], queued := [task.offset], log }

end Context

/-- `disassemble` without a bound. -/
def disassemble? (target : Target) (request : Request) (log : Log) : Option (String × Log) :=
  let start := request.start target.pointerBase
  if target.image.size ≤ start.toNat then
    some ("", log.error (.image start) (ListFault.outOfBounds start).message)
  else
    let context : Context :=
      { toTarget := target, mode := request.mode, sizeLimit := request.sizeLimit }
    (context.run? ⟨start, request.group⟩ log).map fun final =>
      (render target.pointerBase final.labels final.blocks.toList, final.log)

/-! ## No bytes are asked for that are not there -/

theorem paramBytes?_eq {param : Param} {bytes : List UInt8} (h : param.stop ≤ bytes.length) :
    paramBytes? param bytes = some (paramBytes param bytes) := by
  rw [paramBytes?, if_pos h, List.drop_take, paramBytes, Param.stop, Nat.add_sub_cancel_left]

/-- A test of each element that always has a result. -/
theorem allM_eq_some {α : Type} {test : α → Option Bool} {p : α → Bool} {l : List α}
    (h : ∀ a ∈ l, test a = some (p a)) : l.allM test = some (l.all p) := by
  induction l with
  | nil => rfl
  | cons a l ih =>
    obtain ⟨ha, hl⟩ := List.forall_mem_cons.1 h
    rw [List.allM, ha, List.all_cons]
    cases p a with
    | false => rfl
    | true => exact ih hl

namespace Target

variable {t : Target} {offset : UInt32} {group : Option String} {code : Code} {bytes : List UInt8}

/-- The bytes outside of a code's parts, looked at one after the other. -/
theorem all_range_covers (code : Code) (bytes : List UInt8) :
    ((List.range bytes.length).all fun i => code.covers i || bytes[i]?.all (· == 0)) =
      bytes.zipIdx.all fun (b, i) => code.covers i || b == 0 := by
  rw [Bool.eq_iff_iff, List.all_eq_true, List.all_eq_true]
  constructor
  · rintro h ⟨b, i⟩ hmem
    obtain ⟨hi, hb⟩ := List.getElem?_eq_some_iff.1 (List.mem_zipIdx_iff_getElem?.1 hmem)
    have hcovers := h i (List.mem_range.2 hi)
    rw [List.getElem?_eq_getElem hi, hb] at hcovers
    exact hcovers
  · intro h i hmem
    have hi := List.mem_range.1 hmem
    have hpair : (bytes[i], i) ∈ bytes.zipIdx := List.mem_zipIdx_iff_getElem?.2 (by simp [hi])
    rw [List.getElem?_eq_getElem hi]
    exact h _ hpair

theorem fits?_eq (hcode : code.WellFormed) (hlength : bytes.length = code.length) :
    t.fits? code bytes = some (t.fits code bytes) := by
  have hzeros : ((List.range code.length).allM fun i =>
        if code.covers i then some true else bytes[i]?.map (· == 0)) =
      some (bytes.zipIdx.all fun (b, i) => code.covers i || b == 0) := by
    rw [← all_range_covers, hlength]
    apply allM_eq_some
    intro i hi
    have hin : i < bytes.length := hlength ▸ List.mem_range.1 hi
    rw [List.getElem?_eq_getElem hin]
    cases code.covers i <;> rfl
  have hstructs : ((code.params.filter (·.kind.isStruct)).allM fun p =>
        (paramBytes? p bytes).map fun part => t.holds (Encoding.readUnsigned part)) =
      some ((code.params.filter (·.kind.isStruct)).all fun p =>
        t.holds (Encoding.readUnsigned (paramBytes p bytes))) := by
    apply allM_eq_some
    intro p hp
    have hstop : p.stop ≤ bytes.length := hlength ▸ hcode.stop_le p (List.mem_filter.1 hp).1
    rw [paramBytes?_eq hstop, Option.map_some]
  simp only [fits?, fits, hzeros, hstructs]
  cases code.matchesId bytes <;> cases bytes.zipIdx.all fun (b, i) => code.covers i || b == 0 <;> rfl

theorem accepts?_eq (hcode : code.WellFormed) :
    t.accepts? offset group code = some (t.accepts offset group code) := by
  unfold accepts? accepts
  by_cases hin : offset.toNat + code.length ≤ t.image.size
  · have hread : t.image.read? offset code.length =
        some (t.image.extract offset.toNat (offset.toNat + code.length)).toList := by
      rw [Image.read?, if_pos hin]
    rw [hread, Option.bind_some, Option.any_some, fits?_eq hcode (Image.of_read? hread).1]
    cases code.listed <;> cases group.all (code.group == ·) <;>
      cases offset.toNat % max code.align.toNat 1 == 0 <;> simp [hin]
  · have hread : t.image.read? offset code.length = none := by rw [Image.read?, if_neg hin]
    simp [hin, hread]

theorem accepted?_eq {codes : List Code} (hcodes : ∀ code ∈ codes, code.WellFormed) :
    t.accepted? offset group codes = some (codes.filter (t.accepts offset group)) := by
  induction codes with
  | nil => rfl
  | cons code codes ih =>
    obtain ⟨hcode, hcodes⟩ := List.forall_mem_cons.1 hcodes
    rw [accepted?, accepts?_eq hcode, ih hcodes, List.filter_cons]
    rfl

/-- The search for a code looks at nothing outside of the image. -/
theorem best??_eq (hcodes : ∀ code ∈ t.codes, code.WellFormed) :
    t.best?? offset group = some (t.best? offset group) := by
  rw [best??, accepted?_eq hcodes, Option.map_some, best?]

end Target

theorem State.operands?_eq (mode : Mode) (base : UInt32) {bytes : List UInt8} {params : List Param}
    (h : ∀ p ∈ params, p.stop ≤ bytes.length) (s : State) :
    s.operands? mode base bytes params = some (s.operands mode base bytes params) := by
  induction params generalizing s with
  | nil => rfl
  | cons param params ih =>
    obtain ⟨hparam, hparams⟩ := List.forall_mem_cons.1 h
    simp only [operands?, operands, paramBytes?_eq hparam, Option.bind_eq_bind, Option.bind_some,
      ih hparams]
    rfl

namespace Context

variable {c : Context}

/-- The operands of a code that was found lie in its bytes. -/
theorem decode?_eq (hcodes : ∀ code ∈ c.codes, code.WellFormed) {cursor : UInt32}
    {group : Option String} {code : Code} (hbest : c.best? cursor group = some code) (s : State) :
    c.decode? s cursor code = some (c.decode s cursor code) := by
  obtain ⟨hmem, haccepts⟩ := Target.of_best? hbest
  obtain ⟨_, bytes, hread, _⟩ := Target.of_accepts haccepts
  have hstop : ∀ p ∈ code.params, p.stop ≤ bytes.length := fun p hp =>
    (Image.of_read? hread).1 ▸ (hcodes code hmem).stop_le p hp
  simp only [decode?, decode, hread, Option.bind_eq_bind, Option.bind_some, Option.getD_some,
    State.operands?_eq _ _ hstop]
  rfl

/-! ## Blocks end -/

/-- A block goes on after a code that was found. -/
theorem lt_codeEnd (hcodes : ∀ code ∈ c.codes, code.WellFormed) (hsize : c.image.size < 2 ^ 32)
    {cursor : UInt32} {group : Option String} {code : Code}
    (hbest : c.best? cursor group = some code) : cursor.toNat < (codeEnd cursor code).toNat := by
  have hend := (Target.toNat_codeEnd hsize hbest).1
  have hpos := (hcodes code (Target.of_best? hbest).1).length_pos
  omega

/-- The loop of a block ends, since each code takes it on towards the end of the image. -/
theorem lines?_eq (hcodes : ∀ code ∈ c.codes, code.WellFormed) (hsize : c.image.size < 2 ^ 32)
    (start : UInt32) (group : Option String) (cursor : UInt32) (s : State) :
    c.lines? start group cursor s = some (c.lines start group cursor s) := by
  fun_induction lines c start group cursor s with
  | case1 cursor s hend =>
    rw [lines?, if_pos hend]
  | case2 cursor s hend hlimit fault =>
    rw [lines?, if_neg hend, if_pos hlimit]
  | case3 cursor s hend hlimit hbest fault =>
    rw [lines?, if_neg hend, if_neg hlimit, Target.best??_eq hcodes, hbest]
    rfl
  | case4 cursor s hend hlimit code hbest hqueued =>
    rw [lines?, if_neg hend, if_neg hlimit, Target.best??_eq hcodes, hbest]
    exact if_pos hqueued
  | case5 cursor s hend hlimit code hbest hqueued line s' hdecode hmore rest s'' hrest ih =>
    rw [lines?, if_neg hend, if_neg hlimit, Target.best??_eq hcodes, hbest]
    simp only [Option.bind_eq_bind, Option.bind_some, if_neg hqueued, decode?_eq hcodes hbest, hdecode,
      if_neg hmore.1, ih, hrest]
    rfl
  | case6 cursor s hend hlimit code hbest hqueued line s' hdecode hlast =>
    have hterminates : code.terminates = true := by
      by_contra hgoes
      exact hlast ⟨hgoes, lt_codeEnd hcodes hsize hbest⟩
    rw [lines?, if_neg hend, if_neg hlimit, Target.best??_eq hcodes, hbest]
    simp only [Option.bind_eq_bind, Option.bind_some, if_neg hqueued, decode?_eq hcodes hbest, hdecode,
      if_pos hterminates]
    rfl

/-- The loop of the queue ends where a bounded one has emptied the queue. -/
theorem blocks?_eq (hcodes : ∀ code ∈ c.codes, code.WellFormed) (hsize : c.image.size < 2 ^ 32)
    {count : Nat} {s : State} (hqueue : (c.blocks count s).queue = []) :
    c.blocks? s = some (c.blocks count s) := by
  induction count generalizing s with
  | zero =>
    have hempty : s.queue = [] := hqueue
    rw [blocks?, hempty]
    rfl
  | succ count ih =>
    rw [blocks?]
    cases hs : s.queue with
    | nil => simp only [blocks, hs]
    | cons task queue =>
      simp only [blocks, hs] at hqueue ⊢
      simp only [lines?_eq hcodes hsize, Option.bind_eq_bind, Option.bind_some]
      exact ih hqueue

theorem run?_eq (hcodes : ∀ code ∈ c.codes, code.WellFormed) (hsize : c.image.size < 2 ^ 32)
    {task : Task} (hin : task.offset.toNat < c.image.size) (log : Log) :
    c.run? task log = some (c.run task log) :=
  blocks?_eq hcodes hsize (run_spec hcodes task hin log).2

end Context

/-! ## Listings end -/

end CartScript.Listing
