import CartScript.Listing.Match
import CartScript.Listing.Operand
import CartScript.Listing.Request

/-!
# Decoding blocks

A block is a chain of codes that starts at an offset.  The addresses of sub-structures are queued,
each offset once, and decoded as blocks of their own.
-/

namespace CartScript.Listing

/-- A decoded code. -/
structure Line where
  offset : UInt32
  code : Code
  operands : List Operand
  deriving Repr, DecidableEq, Inhabited

structure Block where
  start : UInt32
  lines : List Line
  deriving Repr, DecidableEq, Inhabited

/-- What ends a block before its end is known. -/
inductive ListFault where
  | noMatch (offset : UInt32)
  | sizeLimit (offset : UInt32) (limit : Nat)
  | outOfBounds (offset : UInt32)
  deriving Repr, DecidableEq, Inhabited

def ListFault.message : ListFault → String
  | .noMatch offset => s!"no matching code at {renderOffset offset}"
  | .sizeLimit offset limit =>
    s!"size limit of {limit} bytes reached at {renderOffset offset} without a terminator"
  | .outOfBounds offset => s!"offset {renderOffset offset} is outside the image"

/-- A block that is to be decoded. -/
structure Task where
  offset : UInt32
  /-- The group of its codes. -/
  group : Option String
  deriving Repr, DecidableEq, Inhabited

/-- A decoding under way. -/
structure State where
  /-- The blocks that are to be decoded. -/
  queue : List Task := []
  /-- The offsets that were ever queued. -/
  queued : List UInt32 := []
  /-- The start and the end of each decoded code, the latest first. -/
  decoded : List (UInt32 × UInt32) := []
  /-- The offsets that are named. -/
  labels : List UInt32 := []
  blocks : Array Block := #[]
  log : Log
  deriving Repr, DecidableEq, Inhabited

namespace State

def isQueued (s : State) (offset : UInt32) : Bool := s.queued.contains offset

/-- Whether a decoded code starts at an offset. -/
def isDecoded (s : State) (offset : UInt32) : Bool := s.decoded.any (·.1 == offset)

/-- The decoded code that starts last before an offset. -/
def codeBefore? (offset : UInt32) : List (UInt32 × UInt32) → Option (UInt32 × UInt32)
  | [] => none
  | code :: decoded =>
    match codeBefore? offset decoded with
    | none => if code.1 < offset then some code else none
    | some other => if code.1 < offset && other.1 < code.1 then some code else some other

/-- Whether an offset lies in a decoded code, after its start. -/
def isInside (s : State) (offset : UInt32) : Bool :=
  (codeBefore? offset s.decoded).any fun code => offset < code.2

/-- Names an offset, and queues it unless it is decoded or queued. -/
def follow (s : State) (offset : UInt32) (group : String) : State :=
  let s := if s.labels.contains offset then s else { s with labels := offset :: s.labels }
  if s.isDecoded offset || s.isQueued offset then s
  else { s with queue := s.queue ++ [⟨offset, some group⟩], queued := offset :: s.queued }

/-- The operand of a parameter.  The address of a sub-structure is followed, unless it points into a
    decoded code. -/
def operand (mode : Mode) (base : UInt32) (s : State) (param : Param) (bytes : List UInt8) :
    Operand × State :=
  let plain := plainOperand param bytes
  match param.kind, Encoding.unpointer? (Encoding.readUnsigned bytes) base with
  | .struct group _, some offset =>
    if offset ≠ 0 ∧ mode = .linked ∧ !s.isInside offset then (.label offset, s.follow offset group)
    else (plain, s)
  | _, _ => (plain, s)

/-- The operands of parameters. -/
def operands (mode : Mode) (base : UInt32) (bytes : List UInt8) :
    List Param → State → List Operand × State
  | [], s => ([], s)
  | param :: params, s =>
    let (first, s) := s.operand mode base param (paramBytes param bytes)
    let (rest, s) := operands mode base bytes params s
    (first :: rest, s)

end State

/-- The offset after a code. -/
def codeEnd (cursor : UInt32) (code : Code) : UInt32 := cursor + UInt32.ofNat code.length

/-- What a decoding refers to. -/
structure Context extends Target where
  mode : Mode := .linked
  sizeLimit : Nat := 0x1000
  deriving Repr, DecidableEq, Inhabited

namespace Context

/-- Whether a block that has come to an offset goes no further because of what is there: a code that
    is known, the start of a block, or the end of the image. -/
def isKnownEnd (c : Context) (s : State) (start cursor : UInt32) : Bool :=
  cursor != start && (s.isDecoded cursor || s.isQueued cursor) || c.image.size ≤ cursor.toNat

/-- Decodes a code. -/
def decode (c : Context) (s : State) (cursor : UInt32) (code : Code) : Line × State :=
  let s := { s with decoded := (cursor, codeEnd cursor code) :: s.decoded }
  let bytes := (c.image.read? cursor code.length).getD []
  let (operands, s) := s.operands c.mode c.pointerBase bytes code.params
  (⟨cursor, code, operands⟩, s)

/-- Decodes the rest of a block.  A code does not take bytes of which another block starts. -/
def lines (c : Context) (start : UInt32) (group : Option String) (cursor : UInt32) (s : State) :
    List Line × State :=
  if _hk : c.isKnownEnd s start cursor then ([], s)
  else if c.sizeLimit ≤ (cursor - start).toNat then
    let fault := ListFault.sizeLimit start c.sizeLimit
    ([], { s with log := s.log.warning (.image start) fault.message })
  else match c.best? cursor group with
    | none =>
      let fault := ListFault.noMatch cursor
      ([], { s with log := s.log.error (.image cursor) fault.message })
    | some code =>
      if s.queued.any fun offset => cursor < offset && offset < codeEnd cursor code then ([], s)
      else
        let (line, s) := c.decode s cursor code
        if _h : ¬code.terminates ∧ cursor.toNat < (codeEnd cursor code).toNat then
          let (rest, s) := c.lines start group (codeEnd cursor code) s
          (line :: rest, s)
        else ([line], s)
termination_by c.image.size - cursor.toNat
decreasing_by
  have hin : cursor.toNat < c.image.size := by
    simp only [isKnownEnd, Bool.or_eq_true, decide_eq_true_eq, not_or, Nat.not_le] at _hk
    exact _hk.2
  have := _h.2
  omega

/-- Decodes a block. -/
def block (c : Context) (s : State) (task : Task) : State :=
  let (lines, s) := c.lines task.offset task.group task.offset s
  { s with blocks := s.blocks.push ⟨task.offset, lines⟩ }

/-- Decodes the blocks of the queue, at most `count` of them. -/
def blocks (c : Context) : (count : Nat) → State → State
  | 0, s => s
  | count + 1, s =>
    match s.queue with
    | [] => s
    | task :: queue => c.blocks count (c.block { s with queue } task)

/-- Decodes the block at an offset and all that is queued on the way.  Each offset of the image is
    queued at most once. -/
def run (c : Context) (task : Task) (log : Log) : State :=
  c.blocks (c.image.size + 1) { queue := [task], queued := [task.offset], log }

end Context

end CartScript.Listing
