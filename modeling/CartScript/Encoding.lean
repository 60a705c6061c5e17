import CartScript.Assembly.Fault
import CartScript.Code

/-!
# Values as bytes

Integers are stored lowest byte first; a value fits a width if it fits as a signed or as an unsigned
number.  Image offsets are stored as the addresses at which the game sees them.
-/

namespace CartScript.Encoding

/-! ## Integers -/

/-- Whether a value fits a number of bytes, signed or unsigned.  Eight bytes hold every value. -/
def fits (value : Int64) (width : Nat) : Bool :=
  8 ≤ width || (-Bytes.signBit width ≤ value.toInt && value.toInt < Bytes.capacity width)

/-- A value as bytes. -/
def int (value : Int64) (width : Nat) : Except AssembleFault (List UInt8) :=
  if fits value width then .ok (Bytes.ofNat width (value.toInt % Bytes.capacity width).toNat)
  else .error (.outOfRange value width)

/-- Values of equal width, one after the other. -/
def array (values : List Int64) (width : Nat) : Except AssembleFault (List UInt8) :=
  match values with
  | [] => .ok []
  | value :: values =>
    match int value width with
    | .error fault => .error fault
    | .ok bytes => (array values width).map (bytes ++ ·)

/-- The unsigned number in the first eight bytes. -/
def readUnsigned (bytes : List UInt8) : Nat := Bytes.toNat (bytes.take 8)

/-- The number in the first eight bytes.  A signed one of fewer bytes is negative if its highest bit
    is set. -/
def readInt (bytes : List UInt8) (signed : Bool) : Int64 :=
  let raw := readUnsigned bytes
  let width := min bytes.length 8
  if signed && width < 8 && Bytes.signBit width ≤ raw then Int64.ofInt (raw - Bytes.capacity width)
  else Int64.ofNat raw

/-! ## Addresses -/

/-- Values below this are image offsets. -/
def pointerLimit : Nat := 0x2000000

/-- The address of an image offset.  Zero and values that are no offsets stay as they are. -/
def pointer (value : Int64) (base : UInt32) : Int64 :=
  if 0 < value ∧ value.toInt < pointerLimit then value + Int64.ofNat base.toNat else value

/-- The image offset of an address, if it is one. -/
def unpointer? (raw : Nat) (base : UInt32) : Option UInt32 :=
  if base.toNat ≤ raw ∧ raw - base.toNat < pointerLimit then some (UInt32.ofNat (raw - base.toNat))
  else none

/-- A single value in a field of a kind. -/
def field (kind : FieldKind) (width : Nat) (value : Int64) (base : UInt32) :
    Except AssembleFault (List UInt8) :=
  int (if kind.isPointer then pointer value base else value) width

/-! ## Texts -/

/-- Bytes filled up with zeros to a length. -/
def text (bytes : List UInt8) (length : Nat) : Except AssembleFault (List UInt8) :=
  if length < bytes.length then .error (.outOfRange (Int64.ofNat bytes.length) length)
  else .ok (bytes ++ List.replicate (length - bytes.length) 0)

/-- Bytes that can stand in a text as they are. -/
def isPrintable (b : UInt8) : Bool := 0x20 ≤ b && b < 0x7F

/-- The text in a field: printable characters, then only zeros. -/
def readText? (bytes : List UInt8) : Option String :=
  let content := bytes.takeWhile (· != 0)
  let padding := bytes.dropWhile (· != 0)
  if padding.all (· == 0) && content.all isPrintable then some (Ascii.toText content) else none

end CartScript.Encoding
