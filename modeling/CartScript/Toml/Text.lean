import CartScript.Text.Digits

/-!
# Texts and keys of settings files

A text stands in quotation marks, which take escapes, or in apostrophes, which take none.  Three
marks open a text of several lines.  A reading function returns what it read and the characters
after it, or nothing where the file is malformed.
-/

namespace CartScript.Toml

/-! ## Blanks -/

def isSpace (c : Char) : Bool := c == ' ' || c == '\t'

/-- Skips blanks within a line. -/
def skipSpace (cs : List Char) : List Char := cs.dropWhile isSpace

/-- Characters that may not stand in texts and comments. -/
def isControl (c : Char) : Bool := c != '\t' && (c.toNat < 0x20 || c.toNat == 0x7F)

/-- What follows the end of a line, if one is here. -/
def afterNewline? : List Char → Option (List Char)
  | '\n' :: rest => some rest
  | '\r' :: '\n' :: rest => some rest
  | _ => none

/-- How many characters are blanks and ends of lines. -/
def countBlank : List Char → Nat
  | [] => 0
  | c :: rest =>
    if isSpace c || c == '\n' || c == '\r' && rest.head? == some '\n' then countBlank rest + 1
    else 0

/-! ## Escapes -/

/-- The character of a number of so many digits. -/
def numberedChar? (count : Nat) (cs : List Char) : Option Char := do
  let digits := cs.take count
  guard (digits.length = count ∧ digits.all fun c => (Digits.digit? 16 c).isSome)
  let n ← (Digits.read Digits.unsigned64 16 digits).toOption
  guard (n.toNat.isValidChar)
  return Char.ofNat n.toNat

/-- The escapes of one character. -/
def escapes : List (Char × Char) :=
  [('b', '\x08'), ('t', '\t'), ('n', '\n'), ('f', '\x0c'), ('r', '\x0d'), ('"', '"'), ('\\', '\\')]

/-- The character of an escape after its backslash, and how many characters the escape takes. -/
def escape? : List Char → Option (Char × Nat)
  | 'u' :: rest => (numberedChar? 4 rest).map (·, 5)
  | 'U' :: rest => (numberedChar? 8 rest).map (·, 9)
  | c :: _ => (escapes.lookup c).map (·, 1)
  | [] => none

/-- How many characters a backslash at the end of a line skips: all blanks and ends of lines. -/
def joinedLine? (cs : List Char) : Option Nat :=
  if (afterNewline? (skipSpace cs)).isSome then some (countBlank cs) else none

/-! ## Texts -/

/-- What kind of text is read. -/
structure TextKind where
  /-- The mark that closes it. -/
  mark : Char
  hasEscapes : Bool

def TextKind.quoted : TextKind := ⟨'"', true⟩

def TextKind.literal : TextKind := ⟨'\'', false⟩

/-- A text of one line after its opening mark, where `skip` characters belong to an escape. -/
def lineText (kind : TextKind) : (skip : Nat) → List Char → Option (List Char × List Char)
  | _, [] => none
  | skip + 1, _ :: rest => lineText kind skip rest
  | 0, c :: rest => do
    if c = kind.mark then return ([], rest)
    else if kind.hasEscapes && c == '\\' then
      let (escaped, size) ← escape? rest
      let (cs, rest) ← lineText kind size rest
      return (escaped :: cs, rest)
    else if isControl c then none
    else
      let (cs, rest) ← lineText kind 0 rest
      return (c :: cs, rest)

/-- A text of several lines after its opening marks, where `skip` characters belong to an escape.
    Three marks close it; one or two marks in front of these belong to it. -/
def blockText (kind : TextKind) : (skip : Nat) → List Char → Option (List Char × List Char)
  | _, [] => none
  | skip + 1, _ :: rest => blockText kind skip rest
  | 0, c :: rest => do
    let marks := (((c :: rest).take 6).takeWhile (· == kind.mark)).length
    if 5 < marks then none
    else if 3 ≤ marks then return (List.replicate (marks - 3) c, rest.drop (marks - 1))
    else if kind.hasEscapes && c == '\\' then
      match joinedLine? rest with
      | some size => blockText kind size rest
      | none =>
        let (escaped, size) ← escape? rest
        let (cs, rest) ← blockText kind size rest
        return (escaped :: cs, rest)
    else if c == '\r' && rest.head? == some '\n' then blockText kind 0 rest
    else if c != '\n' && isControl c then none
    else
      let (cs, rest) ← blockText kind 0 rest
      return (c :: cs, rest)

/-- A text of one line. -/
def lineText? : List Char → Option (String × List Char)
  | '"' :: rest => (lineText .quoted 0 rest).map fun (cs, rest) => (String.ofList cs, rest)
  | '\'' :: rest => (lineText .literal 0 rest).map fun (cs, rest) => (String.ofList cs, rest)
  | _ => none

/-- A text of one or several lines.  The end of a line right after three opening marks is not part
    of the text. -/
def text? (cs : List Char) : Option (String × List Char) :=
  let block (kind : TextKind) (rest : List Char) : Option (String × List Char) :=
    (blockText kind 0 ((afterNewline? rest).getD rest)).map fun (cs, rest) =>
      (String.ofList cs, rest)
  match cs with
  | '"' :: '"' :: '"' :: rest => block .quoted rest
  | '\'' :: '\'' :: '\'' :: rest => block .literal rest
  | _ => lineText? cs

/-! ## Keys -/

/-- Characters of a key without quotes. -/
def isKeyChar (c : Char) : Bool := c.isAlphanum || c == '_' || c == '-'

/-- One part of a key. -/
def keyPart? (cs : List Char) : Option (String × List Char) :=
  match cs.takeWhile isKeyChar with
  | [] => lineText? cs
  | name => some (String.ofList name, cs.dropWhile isKeyChar)

/-- A dotted key of at most so many parts, with blanks around them. -/
def keyOf : (parts : Nat) → List Char → Option (List String × List Char)
  | 0, _ => none
  | parts + 1, cs => do
    let (first, rest) ← keyPart? (skipSpace cs)
    match skipSpace rest with
    | '.' :: rest =>
      let (more, rest) ← keyOf parts rest
      return (first :: more, rest)
    | rest => return ([first], rest)

/-- How deep values may be nested, and how many parts a key may have. -/
def depthLimit : Nat := 79

/-- A dotted key. -/
def key? (cs : List Char) : Option (List String × List Char) := keyOf depthLimit cs

end CartScript.Toml
