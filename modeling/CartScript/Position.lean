/-!
# Positions in a script
-/

namespace CartScript

/-- A place in a script: lines and columns count from 1, a column counts bytes. -/
structure Position where
  file : String
  line : Nat
  column : Nat
  deriving Repr, DecidableEq, Inhabited

namespace Position

/-- `file:line:column`. -/
def render (p : Position) : String := s!"{p.file}:{p.line}:{p.column}"

end Position

/-- A line and column within one text. -/
structure Place where
  line : Nat := 1
  column : Nat := 1
  deriving Repr, DecidableEq, Inhabited

namespace Place

/-- The place after one more byte. -/
def step (p : Place) (b : UInt8) : Place :=
  if b = 0x0A then ⟨p.line + 1, 1⟩ else ⟨p.line, p.column + 1⟩

/-- The place after some more bytes. -/
def steps (p : Place) (bytes : List UInt8) : Place := bytes.foldl step p

/-- The place in the file of the given name. -/
def inFile (p : Place) (file : String) : Position := ⟨file, p.line, p.column⟩

end Place

/-- Something that stands at a position. -/
structure Located (α : Type) where
  position : Position
  value : α
  deriving Repr, DecidableEq, Inhabited

end CartScript
