import CartScript.Text.Blank
import CartScript.Text.Digits

/-!
# Numbers as users write them

Numbers in definition files, settings and on the command line: decimal, hexadecimal after `$` or
`0x`, binary after `%` or `0b`, with an optional minus sign in front and underscores among the
digits.  Values are 64-bit signed words.
-/

namespace CartScript.Number

/-- Reads digits after the sign, with the underscores already gone. -/
def readMagnitude? (cs : List Char) : Option Int :=
  let digits (radix : Nat) (cs : List Char) := (Digits.read Digits.signed64 radix cs).toOption
  match cs with
  | '$' :: rest => digits 16 rest
  | '0' :: 'x' :: rest => digits 16 rest
  | '0' :: 'X' :: rest => digits 16 rest
  | '%' :: rest => digits 2 rest
  | '0' :: 'b' :: rest => digits 2 rest
  | '0' :: 'B' :: rest => digits 2 rest
  | rest => digits 10 rest

/-- Reads a number in any of its spellings.  Blanks around it are ignored. -/
def read? (cs : List Char) : Option Int64 :=
  match Text.trim cs with
  | '-' :: rest => (readMagnitude? (rest.filter (· != '_'))).map fun n => -Int64.ofInt n
  | rest => (readMagnitude? (rest.filter (· != '_'))).map Int64.ofInt

/-- Reads a number in any of its spellings. -/
def parse? (text : String) : Option Int64 := read? text.toList

/-- What is said about a text that is no number. -/
def invalidMessage (text : String) : String := s!"{text} is not a valid number"

/-- Why a text is no definition `NAME=value`. -/
inductive DefineFault where
  | noEquals (text : String)
  | value (fault : Digits.Fault)
  deriving Repr, DecidableEq

def DefineFault.message : DefineFault → String
  | .noEquals text => s!"invalid SYMBOL=value: no `=` found in `{text}`"
  | .value fault => fault.message

/-- Reads `NAME=value` with a plain decimal value.  The name is everything before the first `=`. -/
def parseDefine (text : String) : Except DefineFault (String × Int64) :=
  match Text.cut? '=' text.toList with
  | none => .error (.noEquals text)
  | some (name, value) =>
    match Digits.read Digits.signed64 10 value with
    | .error fault => .error (.value fault)
    | .ok n => .ok (String.ofList name, Int64.ofInt n)

end CartScript.Number
