import CartScript.Bytes
import CartScript.Text.Ascii

/-!
# Codes

A *code* is a named piece of data with a fixed layout: the bytes of its id, then parameters at fixed
offsets.  `Code` says how instances of it look in an image, and `Registry` holds all codes.
-/

namespace CartScript

/-- How the bytes of a parameter are read and written. -/
inductive FieldKind where
  | int (signed hex : Bool)
  /-- An address that is written but not followed. -/
  | pointer (element : Nat)
  /-- The address of a piece made of codes of the given group. -/
  | struct (group : String) (element : Nat)
  /-- Text of a fixed length, filled up with zeros. -/
  | text
  /-- A number of values of equal width. -/
  | array (count : Nat) (signed hex : Bool)
  deriving Repr, DecidableEq, Inhabited

namespace FieldKind

def isPointer : FieldKind → Bool
  | .pointer _ | .struct _ _ => true
  | _ => false

def isStruct : FieldKind → Bool
  | .struct _ _ => true
  | _ => false

/-- The width of one element where an address is given as a list. -/
def element : FieldKind → Nat
  | .pointer element => element
  | .struct _ element => element
  | _ => 1

/-- What an argument has to be, in words. -/
def describe : FieldKind → String
  | .int _ _ => "a value"
  | .pointer _ | .struct _ _ => "an address or inline data"
  | .text => "a string"
  | .array _ _ _ => "a list"

end FieldKind

structure Param where
  name : String
  offset : Nat
  length : Nat
  kind : FieldKind
  deriving Repr, DecidableEq, Inhabited

namespace Param

/-- The offset after the last byte. -/
def stop (p : Param) : Nat := p.offset + p.length

/-- Whether two parameters share a byte. -/
def overlaps (p q : Param) : Bool := p.offset < q.stop && q.offset < p.stop

/-- Whether the byte at an offset belongs to the parameter. -/
def covers (p : Param) (i : Nat) : Bool := p.offset ≤ i && i < p.stop

end Param

structure Code where
  name : String
  id : UInt32
  /-- How many bytes at the start are fixed by the id. -/
  idLength : Nat
  length : Nat
  params : List Param := []
  priority : Int := 0
  group : String := "main"
  /-- The games that have the code; none named means all. -/
  games : List String := []
  /-- Whether it ends a list of codes. -/
  terminates : Bool := false
  /-- Whether listings may use it. -/
  listed : Bool := true
  align : UInt32 := 1
  doc : Option String := none
  /-- The place in the registry. -/
  index : Nat := 0
  /-- Where it was defined. -/
  origin : String := ""
  deriving Repr, DecidableEq, Inhabited

namespace Code

/-- An id other than zero takes two bytes unless something else is said. -/
def defaultIdLength (id : UInt32) : Nat := if id = 0 then 0 else 2

/-- A code with nothing but a name, an id and a length. -/
def make (name : String) (id : UInt32) (length : Nat) : Code :=
  { name, id, length, idLength := defaultIdLength id }

/-- Whether the code is there in a game.  Letter case does not matter. -/
def forGame (c : Code) (game : String) : Bool :=
  c.games.isEmpty || c.games.any fun g => Text.lowerAscii g == Text.lowerAscii game

/-- Whether some game has both codes. -/
def sharesGame (c d : Code) : Bool :=
  c.games.isEmpty || d.games.isEmpty || c.games.any d.forGame

/-- The bytes at the start of every instance: the id, lowest byte first. -/
def idBytes (c : Code) : List UInt8 := Bytes.ofNat c.idLength c.id.toNat

/-- Whether bytes start with the id. -/
def matchesId (c : Code) (bytes : List UInt8) : Bool :=
  c.idLength ≤ bytes.length && bytes.take c.idLength == c.idBytes

/-- The parameter of a name. -/
def param? (c : Code) (name : String) : Option Param := c.params.find? (·.name == name)

/-- Whether the id or a parameter covers the byte at an offset. -/
def covers (c : Code) (i : Nat) : Bool := i < c.idLength || c.params.any (·.covers i)

end Code

end CartScript
