/-!
# What is to be listed
-/

namespace CartScript.Listing

/-- How far a listing goes. -/
inductive Mode where
  /-- Also what the addresses of sub-structures point at. -/
  | linked
  /-- One run of codes; addresses are only printed. -/
  | toEnd
  deriving Repr, DecidableEq, Inhabited

namespace Mode

def name : Mode → String
  | .linked => "structure"
  | .toEnd => "to-end"

/-- The mode of a name. -/
def ofName? : String → Option Mode
  | "structure" => some .linked
  | "to-end" => some .toEnd
  | "toend" => some .toEnd
  | _ => none

/-- What is said about a name that is no mode's. -/
def unknownMessage (text : String) : String := s!"unknown disassembly mode \"{text}\""

end Mode

structure Request where
  /-- Where the listing starts, as an image offset or as an address. -/
  offset : UInt32
  mode : Mode := .linked
  /-- How many bytes a block may take before it has to end. -/
  sizeLimit : Nat := 0x1000
  /-- The group of the codes in the first block. -/
  group : Option String := none
  deriving Repr, DecidableEq, Inhabited

end CartScript.Listing
