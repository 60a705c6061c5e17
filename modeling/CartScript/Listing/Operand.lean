import CartScript.Encoding

/-!
# Operands of a listing

The arguments of a code as a listing shows them.  Their texts read back as arguments that give the
same bytes.
-/

namespace CartScript.Listing

inductive Operand where
  | number (value : Int64) (hex : Bool)
  /-- A stored address. -/
  | address (raw : Nat)
  | label (offset : UInt32)
  | text (content : String)
  | list (values : List Int64) (hex : Bool)
  deriving Repr, DecidableEq, Inhabited

/-- The label of an offset. -/
def label (offset : UInt32) : String := "label_" ++ hexPadded 6 offset.toNat

/-- The text of a number. -/
def number (value : Int64) (hex : Bool) : String :=
  if !hex then toString value.toInt
  else if value < 0 then "-0x" ++ CartScript.hex value.toInt.natAbs
  else "0x" ++ CartScript.hex value.toInt.natAbs

/-- The text of a stored address: the image offset, if it is one other than zero. -/
def address (raw : Nat) (base : UInt32) : String :=
  match Encoding.unpointer? raw base with
  | some offset =>
    if offset ≠ 0 then "0x" ++ hex offset.toNat
    else if raw = 0 then "0" else "0x" ++ hex raw
  | none => if raw = 0 then "0" else "0x" ++ hex raw

/-- The characters of a text between its quotes. -/
def escape : List Char → List Char
  | [] => []
  | c :: cs => if c = '\\' ∨ c = '"' then '\\' :: c :: escape cs else c :: escape cs

/-- The text of a text. -/
def quote (content : String) : String := "\"" ++ String.ofList (escape content.toList) ++ "\""

/-- The text of a list. -/
def list (items : List String) : String := "[" ++ ", ".intercalate items ++ "]"

namespace Operand

def render (base : UInt32) : Operand → String
  | .number value hex => Listing.number value hex
  | .address raw => Listing.address raw base
  | .label offset => Listing.label offset
  | .text content => Listing.quote content
  | .list values hex => Listing.list (values.map (Listing.number · hex))

end Operand

/-- Elements of a width. -/
def elements (width : Nat) : (count : Nat) → List UInt8 → List (List UInt8)
  | 0, _ => []
  | count + 1, bytes => bytes.take width :: elements width count (bytes.drop width)

/-- The operand of a parameter that is no sub-structure. -/
def plainOperand (param : Param) (bytes : List UInt8) : Operand :=
  match param.kind with
  | .int signed hex => .number (Encoding.readInt bytes signed) hex
  | .pointer _ | .struct _ _ => .address (Encoding.readUnsigned bytes)
  | .text =>
    match Encoding.readText? bytes with
    | some content => .text content
    | none => .list (bytes.map fun b => Int64.ofNat b.toNat) true
  | .array count signed hex =>
    .list ((elements (param.length / count) count bytes).map (Encoding.readInt · signed)) hex

end CartScript.Listing
