import CartScript.Listing.Decode

/-!
# Listings as scripts

The text of a listing is a script that assembles to the bytes that were decoded.
-/

namespace CartScript.Listing

/-- The text of a decoded code. -/
def Line.render (base : UInt32) (line : Line) : String :=
  if line.code.params.isEmpty then line.code.name
  else line.code.name ++ "(" ++ ", ".intercalate (line.operands.map (Operand.render base)) ++ ")"

/-- The lines of a script for a decoded code; a named offset inside a block gets its label. -/
def Line.texts (base : UInt32) (labels : List UInt32) (start : UInt32) (line : Line) : List String :=
  if line.offset ≠ start ∧ labels.contains line.offset then
    [label line.offset ++ ":", line.render base]
  else [line.render base]

/-- The lines of a script for a block. -/
def Block.texts (base : UInt32) (labels : List UInt32) (block : Block) : List String :=
  ["ORG 0x" ++ hex block.start.toNat, label block.start ++ ":"] ++
    block.lines.flatMap (Line.texts base labels block.start)

/-- Lines as a text. -/
def joinLines (lines : List String) : String := String.join (lines.map (· ++ "\n"))

/-- The script for blocks, with an empty line between them. -/
def render (base : UInt32) (labels : List UInt32) (blocks : List Block) : String :=
  "\n".intercalate (blocks.map fun block => joinLines (block.texts base labels))

/-- The image offset at which a listing starts. -/
def Request.start (request : Request) (base : UInt32) : UInt32 :=
  (Encoding.unpointer? request.offset.toNat base).getD request.offset

/-- Lists what stands at an offset of an image.  What is wrong is logged, and what could be decoded is
    listed nevertheless. -/
def disassemble (target : Target) (request : Request) (log : Log) : String × Log :=
  let start := request.start target.pointerBase
  if target.image.size ≤ start.toNat then
    ("", log.error (.image start) (ListFault.outOfBounds start).message)
  else
    let context : Context :=
      { toTarget := target, mode := request.mode, sizeLimit := request.sizeLimit }
    let final := context.run ⟨start, request.group⟩ log
    (render target.pointerBase final.labels final.blocks.toList, final.log)

end CartScript.Listing
