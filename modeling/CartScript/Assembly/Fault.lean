import CartScript.Expr
import CartScript.Log

/-!
# What can go wrong in an assembly
-/

namespace CartScript

inductive AssembleFault where
  | unresolvedSymbol (name : String) (firstUse : Option Position)
  | duplicateSymbol (name : String)
  | freeSpaceExhausted (size : Nat)
  | outOfBounds (offset : UInt32) (size : Nat)
  | protectedRegion (offset start stop : UInt32)
  | outOfRange (value : Int64) (width : Nat)
  | notConstant (keyword : String)
  | emptyStack
  | assertionFailed
  | noCode (index : Nat)
  | wrongArgument (code param : String)
  | protectReversed (start stop : UInt32)
  | eval (fault : EvalFault)
  deriving Repr, DecidableEq, Inhabited

def AssembleFault.message : AssembleFault → String
  | .unresolvedSymbol name firstUse =>
    let place := (firstUse.map Position.render).getD "<unknown>"
    s!"undefined symbol \"{name}\"\n\tfirst used at {place}"
  | .duplicateSymbol name => s!"symbol \"{name}\" already defined"
  | .freeSpaceExhausted size => s!"no free space for {size} bytes"
  | .outOfBounds offset size =>
    s!"write of {size} bytes at {renderOffset offset} is outside the image"
  | .protectedRegion offset start stop =>
    s!"write at {renderOffset offset} overlaps protected region " ++
      s!"{renderOffset start}..{renderOffset stop}"
  | .outOfRange value width => s!"value {value.toInt} does not fit in {width} byte(s)"
  | .notConstant keyword => s!"{keyword} requires a value known at this point"
  | .emptyStack => "POP without matching PUSH"
  | .assertionFailed => "assertion failed"
  | .noCode index => s!"no code with index {index}"
  | .wrongArgument code param => s!"argument for \"{code}\" parameter \"{param}\" has the wrong type"
  | .protectReversed start stop =>
    s!"PROTECT end {renderOffset stop} is before its start {renderOffset start}"
  | .eval fault => fault.message

end CartScript
