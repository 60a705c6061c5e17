import CartScript.Assembly.Cursor
import CartScript.Image
import CartScript.Text.Utf8

/-!
# What statements write

The bytes of a statement are zeros, overwritten by patches.  Some patches are fixed, others hold
values of expressions: these are its fields.  A field may also hold the address of data that stands
elsewhere, in free space.
-/

namespace CartScript

/-- Bytes at a place. -/
structure Patch where
  start : Nat
  bytes : List UInt8
  deriving Repr, DecidableEq, Inhabited

namespace Patch

/-- The bytes of a statement of a size. -/
def render (size : Nat) (patches : List Patch) : List UInt8 :=
  (patches.foldl (fun (bytes : Image) p => bytes.overwrite p.start p.bytes)
    (Array.replicate size 0)).toList

end Patch

/-- Where the value of a field comes from. -/
inductive FieldSource where
  | expr (value : Expr)
  /-- Data in free space with elements of a width; the value is its offset. -/
  | inline (data : Arg) (element : Nat)
  deriving Repr, DecidableEq, Inhabited

/-- A value in the bytes of a statement. -/
structure Field where
  start : Nat
  width : Nat
  isPointer : Bool
  source : FieldSource
  deriving Repr, DecidableEq, Inhabited

namespace Field

/-- A field that holds a number. -/
def int (start width : Nat) (value : Expr) : Field :=
  { start, width, isPointer := false, source := .expr value }

/-- A field that holds an address. -/
def pointer (start width : Nat) (source : FieldSource) : Field :=
  { start, width, isPointer := true, source }

/-- Numbers of equal width, one after the other. -/
def ints (start width : Nat) (values : List Expr) : List Field :=
  values.mapIdx fun i value => int (start + i * width) width value

/-- The bytes of a field with a value. -/
def encode (f : Field) (value : Int64) (base : UInt32) : Except AssembleFault Patch :=
  (Encoding.int (if f.isPointer then Encoding.pointer value base else value) f.width).map
    (⟨f.start, ·⟩)

end Field

/-- The parts of the bytes of a statement. -/
structure Layout where
  fixed : List Patch := []
  fields : List Field := []
  deriving Repr, DecidableEq, Inhabited

namespace Layout

def append (a b : Layout) : Layout := ⟨a.fixed ++ b.fixed, a.fields ++ b.fields⟩

/-- The parts for a parameter and its argument. -/
def ofArg (code : Code) (param : Param) (arg : Arg) : Except AssembleFault Layout :=
  let mismatch := AssembleFault.wrongArgument code.name param.name
  match param.kind, arg with
  | .int _ _, .expr value => .ok { fields := [.int param.offset param.length value] }
  | .pointer _, .expr value | .struct _ _, .expr value =>
    .ok { fields := [.pointer param.offset param.length (.expr value)] }
  | .pointer element, data | .struct _ element, data =>
    .ok { fields := [.pointer param.offset param.length (.inline data element)] }
  | .text, .text content =>
    match Encoding.text (Utf8.encode content) param.length with
    | .ok bytes => .ok { fixed := [⟨param.offset, bytes⟩] }
    | .error fault => .error fault
  | .text, .list items =>
    if items.length ≤ param.length then .ok { fields := Field.ints param.offset 1 items }
    else .error mismatch
  | .array count _ _, .list items =>
    if items.length = count then
      .ok { fields := Field.ints param.offset (param.length / count) items }
    else .error mismatch
  | _, _ => .error mismatch

/-- The parts for parameters and their arguments. -/
def ofArgs (code : Code) : List (Param × Arg) → Except AssembleFault Layout
  | [] => .ok {}
  | (param, arg) :: rest =>
    match ofArg code param arg with
    | .error fault => .error fault
    | .ok first => (ofArgs code rest).map first.append

/-- The parts of a statement that writes bytes of a size. -/
def ofStatement (statement : Statement) (size : Nat) (registry : Registry) :
    Except AssembleFault Layout :=
  match statement with
  | .code index args =>
    match registry.at? index with
    | none => .error (.noCode index)
    | some code =>
      (ofArgs code (code.params.zip args)).map (append { fixed := [⟨0, code.idBytes⟩] })
  | .data width values => .ok { fields := Field.ints 0 width values }
  | .pointers values =>
    .ok { fields := values.mapIdx fun i value => .pointer (i * 4) 4 (.expr value) }
  | .fill _ value => .ok { fields := Field.ints 0 1 (List.replicate size value) }
  | .bytes content => .ok { fixed := [⟨0, content.toList⟩] }
  | _ => .ok {}

end Layout

namespace Arg

/-- How many bytes the data takes in free space: a text is followed by a zero. -/
def inlineSize (data : Arg) (element : Nat) : Nat :=
  match data with
  | .list items => items.length * element
  | .text content => content.utf8ByteSize + 1
  | .expr _ => 0

/-- The elements of a list at an offset.  The current offset of an element is its own. -/
def elementBytes (element : Nat) (symbols : Symbols) :
    UInt32 → List Expr → Except AssembleFault (List UInt8)
  | _, [] => .ok []
  | offset, item :: items =>
    match (symbols.resolve item offset).bind (Encoding.int · element) with
    | .error fault => .error fault
    | .ok bytes =>
      (elementBytes element symbols (offset + UInt32.ofNat element) items).map (bytes ++ ·)

/-- The bytes of the data at an offset. -/
def inlineBytes (data : Arg) (element : Nat) (offset : UInt32) (symbols : Symbols) :
    Except AssembleFault (List UInt8) :=
  match data with
  | .list items => elementBytes element symbols offset items
  | .text content => .ok (Utf8.encode content ++ [0])
  | .expr _ => .ok []

end Arg

end CartScript
