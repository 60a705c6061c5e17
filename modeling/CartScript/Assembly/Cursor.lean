import CartScript.Encoding
import CartScript.FreeSpace
import CartScript.Registry
import CartScript.Symbols

/-!
# Where statements write

A `Cursor` walks through the statements of a program and says which bytes each of them writes.
-/

namespace CartScript

/-- The bytes that a statement writes. -/
structure Span where
  offset : UInt32
  size : Nat
  deriving Repr, DecidableEq, Inhabited

namespace Span

def interval (s : Span) : Interval := ⟨s.offset.toNat, s.offset.toNat + s.size⟩

end Span

/-- The image offset that a script value means: an address is taken back to its offset. -/
def toOffset (value : Int64) (base : UInt32) : Except AssembleFault UInt32 :=
  if value.toInt < 0 ∨ 0x100000000 ≤ value.toInt then .error (.outOfRange value 4)
  else
    let raw := value.toInt.toNat
    .ok ((Encoding.unpointer? raw base).getD (UInt32.ofNat raw))

/-- A value that must be known where it stands. -/
def constantFor (keyword : String) (e : Expr) (symbols : SymbolSource) (here : UInt32) :
    Except AssembleFault Int64 :=
  match e.eval symbols here with
  | .ok (.known value) => .ok value
  | .ok (.deferred _) => .error (.notConstant keyword)
  | .error fault => .error (.eval fault)

structure Cursor where
  offset : UInt32
  /-- The offsets remembered, the latest first. -/
  stack : List UInt32 := []
  /-- The address of the image. -/
  base : UInt32
  /-- The size of the image, past which nothing is filled. -/
  limit : Nat
  deriving Repr, DecidableEq, Inhabited

namespace Cursor

/-- Moves past bytes that are written. -/
def advance (c : Cursor) (size : Nat) : Option Span × Cursor :=
  (some ⟨c.offset, size⟩, { c with offset := c.offset + UInt32.ofNat size })

/-- How many bytes are filled. -/
def fillSize (c : Cursor) (count : Int64) : Except AssembleFault Nat :=
  if count < 0 then .error (.outOfRange count 4)
  else
    let size := count.toInt.toNat
    if c.limit < c.offset.toNat + size then .error (.outOfBounds c.offset size) else .ok size

/-- Goes on at the next multiple of a number, if it is positive. -/
def align (c : Cursor) (multiple : Int64) : Cursor :=
  if 0 < multiple then
    { c with offset := UInt32.ofNat (Allocator.roundUp c.offset.toNat multiple.toInt.toNat) }
  else c

/-- Moves past a statement, and says which bytes it writes. -/
def step (c : Cursor) (statement : Statement) (registry : Registry) (symbols : SymbolSource) :
    Except AssembleFault (Option Span × Cursor) :=
  match statement with
  | .code index _ =>
    match registry.at? index with
    | some code => .ok (c.advance code.length)
    | none => .error (.noCode index)
  | .data width values => .ok (c.advance (width * values.length))
  | .pointers values => .ok (c.advance (4 * values.length))
  | .bytes content => .ok (c.advance content.size)
  | .fill count _ => do
    let size ← c.fillSize (← constantFor "FILL" count symbols c.offset)
    return c.advance size
  | .org target => do
    let offset ← toOffset (← constantFor "ORG" target symbols c.offset) c.base
    return (none, { c with offset })
  | .align multiple => do
    return (none, c.align (← constantFor "ALIGN" multiple symbols c.offset))
  | .push => .ok (none, { c with stack := c.offset :: c.stack })
  | .pop =>
    match c.stack with
    | offset :: stack => .ok (none, { c with offset, stack })
    | [] => .error .emptyStack
  | .label _ | .constant _ _ | .protect _ _ | .assertion _ | .report _ _ => .ok (none, c)

end Cursor

end CartScript
