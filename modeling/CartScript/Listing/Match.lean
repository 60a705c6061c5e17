import CartScript.Encoding
import CartScript.Image

/-!
# Codes that match bytes

At an offset any code may stand whose fixed bytes are there.  Of several ones the one with the
highest priority is taken, then the one with the longest id, then the one declared first.
-/

namespace CartScript.Listing

/-- What codes are matched against. -/
structure Target where
  image : Image
  /-- The codes of the game. -/
  codes : List Code
  pointerBase : UInt32
  deriving Repr, DecidableEq, Inhabited

/-- The bytes of a parameter. -/
def paramBytes (param : Param) (bytes : List UInt8) : List UInt8 :=
  (bytes.drop param.offset).take param.length

/-- Whether the address of a sub-structure is nothing or lies in the image. -/
def Target.holds (t : Target) (raw : Nat) : Bool :=
  raw == 0 || (Encoding.unpointer? raw t.pointerBase).any (·.toNat < t.image.size)

/-- Whether bytes are an instance of a code: its id, zeros where nothing is stored, and addresses of
    sub-structures that are nothing or lie in the image. -/
def Target.fits (t : Target) (code : Code) (bytes : List UInt8) : Bool :=
  code.matchesId bytes &&
    bytes.zipIdx.all (fun (b, i) => code.covers i || b == 0) &&
    (code.params.filter (·.kind.isStruct)).all fun p =>
      t.holds (Encoding.readUnsigned (paramBytes p bytes))

/-- Whether a code of a group may stand at an offset. -/
def Target.accepts (t : Target) (offset : UInt32) (group : Option String) (code : Code) : Bool :=
  code.listed && group.all (code.group == ·) && offset.toNat % max code.align.toNat 1 == 0 &&
    (t.image.read? offset code.length).any (t.fits code)

/-- Whether a code is taken rather than another one. -/
def outranks (c d : Code) : Bool :=
  d.priority < c.priority || d.priority == c.priority &&
    (d.idLength < c.idLength || d.idLength == c.idLength && c.index < d.index)

/-- The code of the highest rank. -/
def highest? : List Code → Option Code
  | [] => none
  | c :: codes =>
    match highest? codes with
    | none => some c
    | some d => if outranks d c then some d else some c

/-- The code at an offset. -/
def Target.best? (t : Target) (offset : UInt32) (group : Option String) : Option Code :=
  highest? (t.codes.filter (t.accepts offset group))

end CartScript.Listing
