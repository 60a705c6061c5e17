import CartScript.Code
import CartScript.Number

/-!
# Records of a definition file

A definition file describes one code or parameter in a line: values between commas or blanks, and
flags such as `-align:4`.  `Record.code` and `Record.param` read such a line, and `Pending.finish`
checks a code together with its parameters.
-/

namespace CartScript

/-- What is wrong with a line of a definition file. -/
inductive RecordFault where
  | expectedFile
  | paramOutsideCode
  | noLength
  | idTooLong
  | idTooLarge
  | paramPastEnd (name : String)
  | paramOverId (name : String)
  | paramsOverlap (first second : String)
  | paramTwice (name : String)
  | malformed (what text : String)
  | negative (what : String)
  | expectedCode
  | invalidCodeName (name : String)
  | idOutOfRange
  | priorityOutOfRange
  | zeroAlignment
  | unknownCodeFlag (flag : String)
  | expectedParam
  | invalidParamName (name : String)
  | emptyParam
  | conflictingKinds
  | unevenCoordinates
  | unknownParamFlag (flag : String)
  | elementWidth
  | tooWide
  deriving Repr, DecidableEq

def RecordFault.message : RecordFault → String
  | .expectedFile => "expected \"file\""
  | .paramOutsideCode => "parameter outside of a code"
  | .noLength => "code has no length"
  | .idTooLong => "id is longer than the code"
  | .idTooLarge => "id does not fit in its id length"
  | .paramPastEnd name => s!"parameter \"{name}\" extends past the end of the code"
  | .paramOverId name => s!"parameter \"{name}\" overlaps the code id"
  | .paramsOverlap first second => s!"parameters \"{first}\" and \"{second}\" overlap"
  | .paramTwice name => s!"parameter \"{name}\" declared twice"
  | .malformed what text => s!"malformed {what} \"{text}\""
  | .negative what => s!"negative {what}"
  | .expectedCode => "expected NAME, ID[, LENGTH]"
  | .invalidCodeName name => s!"invalid code name \"{name}\""
  | .idOutOfRange => "id out of range"
  | .priorityOutOfRange => "priority out of range"
  | .zeroAlignment => "alignment of 0"
  | .unknownCodeFlag flag => s!"unknown code flag \"-{flag}\""
  | .expectedParam => "expected NAME, POSITION, LENGTH"
  | .invalidParamName name => s!"invalid parameter name \"{name}\""
  | .emptyParam => "parameter of length 0"
  | .conflictingKinds => "conflicting parameter types"
  | .unevenCoordinates => "coordinate count must divide the parameter length"
  | .unknownParamFlag flag => s!"unknown parameter flag \"-{flag}\""
  | .elementWidth => "element width must be 1 to 8"
  | .tooWide => "numeric parameters are at most 8 bytes"

/-- A line of a definition file: its values and its flags without their dash. -/
structure Record where
  values : List (List Char)
  flags : List (List Char)
  deriving Repr, DecidableEq

/-- A flag as key and value; the value is empty where no colon follows the key. -/
structure Flag where
  text : List Char
  key : String
  value : List Char
  deriving Repr, DecidableEq

namespace Record

/-- Whether a word is a flag: a dash and a letter. -/
def isFlag : List Char → Bool
  | '-' :: c :: _ => c.isAlpha
  | _ => false

/-- The words of a line between commas and blanks, flags apart. -/
def ofLine (line : List Char) : Record :=
  let words := (Text.splitBy (· == ',') line).flatMap Text.words
  { values := words.filter fun w => !isFlag w
    flags := (words.filter isFlag).map (List.drop 1) }

end Record

namespace Flag

/-- Cuts a flag at its first colon. -/
def ofText (text : List Char) : Flag :=
  match Text.cut? ':' text with
  | some (key, value) => ⟨text, String.ofList key, value⟩
  | none => ⟨text, String.ofList text, []⟩

end Flag

namespace Record

/-- A number of a record. -/
def number (what : String) (text : List Char) : Except RecordFault Int64 :=
  match Number.read? text with
  | some n => .ok n
  | none => .error (.malformed what (String.ofList text))

/-- A number of a record that counts something. -/
def size (what : String) (text : List Char) : Except RecordFault Nat := do
  let n ← number what text
  if n < 0 then .error (.negative what) else .ok n.toInt.toNat

end Record

/-- A code whose parameters are still being read, with the line it stands in.  Its length is known
    only if the record gives one. -/
structure Pending where
  code : Code
  length? : Option Nat
  line : Nat
  deriving Repr, DecidableEq

namespace Record

/-- What a flag says about a code. -/
def codeFlag (code : Code) (flag : Flag) : Except RecordFault Code := do
  let unknown := RecordFault.unknownCodeFlag (String.ofList flag.text)
  match flag.key with
  | "priority" =>
    let n := (← number "priority" flag.value).toInt
    if -0x80000000 ≤ n ∧ n < 0x80000000 then .ok { code with priority := n }
    else .error .priorityOutOfRange
  | "group" =>
    if Text.isName flag.value then .ok { code with group := String.ofList flag.value }
    else .error unknown
  | "game" =>
    if flag.value.isEmpty then .error unknown
    else .ok { code with games := (Text.splitBy (· == ':') flag.value).map String.ofList }
  | "end" => .ok { code with terminates := true }
  | "noDisassembly" => .ok { code with listed := false }
  | "idLength" => .ok { code with idLength := ← size "id length" flag.value }
  | "align" =>
    let n ← size "alignment" flag.value
    if n = 0 then .error .zeroAlignment else .ok { code with align := UInt32.ofNat n }
  | _ => .error unknown

/-- The code of a name, an id, perhaps a length, and flags. -/
def codeOf (file : String) (line : Nat) (flags : List (List Char)) (name idText : List Char)
    (lengthText? : Option (List Char)) : Except RecordFault Pending := do
  if !Text.isName name then .error (.invalidCodeName (String.ofList name))
  else
    let id ← number "id" idText
    if id.toInt < 0 ∨ 0x100000000 ≤ id.toInt then .error .idOutOfRange
    else
      let length? ← lengthText?.mapM (size "length")
      let plain := Code.make (String.ofList name) (UInt32.ofNat id.toInt.toNat) 0
      let code ← (flags.map Flag.ofText).foldlM codeFlag { plain with origin := s!"{file}:{line}" }
      .ok { code, length?, line }

/-- Reads the line of a code: name, id, perhaps a length, and flags. -/
def code (file : String) (line : Nat) (text : List Char) : Except RecordFault Pending :=
  let record := ofLine text
  match record.values with
  | [name, id] => codeOf file line record.flags name id none
  | [name, id, length] => codeOf file line record.flags name id (some length)
  | _ => .error .expectedCode

/-- What the flags of a parameter say. -/
structure ParamFlags where
  signed : Bool := false
  hex : Bool := false
  element : Nat := 1
  kind? : Option FieldKind := none
  deriving Repr, DecidableEq

/-- Sets the kind, which may be done once. -/
def ParamFlags.setKind (flags : ParamFlags) (kind : FieldKind) : Except RecordFault ParamFlags :=
  if flags.kind?.isSome then .error .conflictingKinds else .ok { flags with kind? := some kind }

/-- What a flag says about a parameter of the given length. -/
def paramFlag (length : Nat) (flags : ParamFlags) (flag : Flag) : Except RecordFault ParamFlags := do
  let unknown := RecordFault.unknownParamFlag (String.ofList flag.text)
  match flag.key with
  | "signed" => .ok { flags with signed := true }
  | "hex" => .ok { flags with hex := true }
  | "element" => .ok { flags with element := ← size "element width" flag.value }
  | "pointer" => flags.setKind (.pointer 1)
  | "struct" =>
    if Text.isName flag.value then flags.setKind (.struct (String.ofList flag.value) 1)
    else .error unknown
  | "string" => flags.setKind .text
  | "coordinates" =>
    let count ← size "coordinate count" flag.value
    if count = 0 ∨ length % count ≠ 0 then .error .unevenCoordinates
    else flags.setKind (.array count false false)
  | _ => .error unknown

/-- The kind that the flags amount to. -/
def ParamFlags.kind (flags : ParamFlags) : FieldKind :=
  match flags.kind? with
  | none => .int flags.signed flags.hex
  | some (.array count _ _) => .array count flags.signed flags.hex
  | some (.pointer _) => .pointer flags.element
  | some (.struct group _) => .struct group flags.element
  | some kind => kind

/-- Whether values of the kind are at most 8 bytes wide in a parameter of the given length. -/
def widthFits (kind : FieldKind) (length : Nat) : Bool :=
  match kind with
  | .int _ _ | .pointer _ | .struct _ _ => length ≤ 8
  | .array count _ _ => length / count ≤ 8
  | .text => true

/-- Reads the line of a parameter: name, offset, length, and flags. -/
def param (text : List Char) : Except RecordFault Param := do
  let record := ofLine text
  match record.values with
  | [name, offsetText, lengthText] =>
    if !Text.isName name then .error (.invalidParamName (String.ofList name))
    else
      let offset ← size "position" offsetText
      let length ← size "length" lengthText
      if length = 0 then .error .emptyParam
      else
        let flags ← (record.flags.map Flag.ofText).foldlM (paramFlag length) {}
        if flags.element < 1 ∨ 8 < flags.element then .error .elementWidth
        else if !widthFits flags.kind length then .error .tooWide
        else .ok { name := String.ofList name, offset, length, kind := flags.kind }
  | _ => .error .expectedParam

end Record

namespace Pending

/-- The length of the code where the record gives none: up to the end of its last part. -/
def measuredLength (p : Pending) : Nat :=
  (p.code.params.map Param.stop).foldl max p.code.idLength

/-- Checks one parameter against the code and the parameters before it. -/
def checkParam (code : Code) (earlier : List Param) (p : Param) : Except RecordFault Unit :=
  if code.length < p.stop then .error (.paramPastEnd p.name)
  else if p.offset < code.idLength then .error (.paramOverId p.name)
  else match earlier.find? (·.overlaps p) with
    | some other => .error (.paramsOverlap other.name p.name)
    | none => if earlier.any (·.name == p.name) then .error (.paramTwice p.name) else .ok ()

/-- Checks parameters in order, each against those before it. -/
def checkParams (code : Code) : (earlier later : List Param) → Except RecordFault Unit
  | _, [] => .ok ()
  | earlier, p :: later =>
    match checkParam code earlier p with
    | .error fault => .error fault
    | .ok () => checkParams code (earlier ++ [p]) later

/-- Whether the id can be written in its length. -/
def idFits (code : Code) : Bool := 4 ≤ code.idLength || code.id.toNat < Bytes.capacity code.idLength

/-- The code with its length, if all its parts fit together. -/
def finish (p : Pending) : Except RecordFault Code :=
  let code := { p.code with length := p.length?.getD p.measuredLength }
  if code.length = 0 then .error .noLength
  else if code.length < code.idLength then .error .idTooLong
  else if !idFits code then .error .idTooLarge
  else match checkParams code [] code.params with
    | .error fault => .error fault
    | .ok () => .ok code

end Pending

end CartScript
