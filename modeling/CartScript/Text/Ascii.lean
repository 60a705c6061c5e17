/-!
# ASCII bytes

The bytes that scripts give a meaning to, and the classes of bytes that make up names and numbers.
-/

namespace CartScript.Ascii

abbrev tab : UInt8 := 0x09
abbrev lineFeed : UInt8 := 0x0A
abbrev carriageReturn : UInt8 := 0x0D
abbrev space : UInt8 := 0x20
abbrev quote : UInt8 := 0x22
abbrev hash : UInt8 := 0x23
abbrev dollar : UInt8 := 0x24
abbrev apostrophe : UInt8 := 0x27
abbrev star : UInt8 := 0x2A
abbrev slash : UInt8 := 0x2F
abbrev zero : UInt8 := 0x30
abbrev semicolon : UInt8 := 0x3B
abbrev backslash : UInt8 := 0x5C
abbrev underscore : UInt8 := 0x5F

def isDigit (b : UInt8) : Bool := 0x30 ≤ b && b ≤ 0x39

def isUpper (b : UInt8) : Bool := 0x41 ≤ b && b ≤ 0x5A

def isLower (b : UInt8) : Bool := 0x61 ≤ b && b ≤ 0x7A

def isLetter (b : UInt8) : Bool := isUpper b || isLower b

def isLetterOrDigit (b : UInt8) : Bool := isLetter b || isDigit b

/-- Bytes that a name may start with. -/
def startsName (b : UInt8) : Bool := isLetter b || b == underscore

/-- Bytes that a name may go on with. -/
def continuesName (b : UInt8) : Bool := isLetterOrDigit b || b == underscore

/-- Bytes with a visible mark. -/
def isGraphic (b : UInt8) : Bool := 0x21 ≤ b && b ≤ 0x7E

/-- Upper-case letters become lower case. -/
def toLower (b : UInt8) : UInt8 := if isUpper b then b + 0x20 else b

/-- The character with the same number. -/
def toChar (b : UInt8) : Char := Char.ofNat b.toNat

/-- The characters with the same numbers. -/
def toText (bytes : List UInt8) : String := String.ofList (bytes.map toChar)

end CartScript.Ascii

namespace CartScript.Text

/-- Whether a text is a name: a letter or underscore, then letters, digits and underscores. -/
def isName : List Char → Bool
  | [] => false
  | c :: cs => (c.isAlpha || c == '_') && cs.all fun d => d.isAlphanum || d == '_'

/-- The text with upper-case ASCII letters made lower case. -/
def lowerAscii (s : String) : String := String.ofList (s.toList.map Char.toLower)

end CartScript.Text
