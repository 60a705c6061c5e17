import CartScript.Toml.Document
import CartScript.Toml.Scalar
import CartScript.Toml.Text

/-!
# Reading settings files

`Toml.read?` takes a whole file.  A reading function returns what it read and the characters after
it, or nothing where the file is malformed.  Where one goes on for as long as there are items or
lines, `limit` bounds their number; a file has no more of them than characters.
-/

namespace CartScript.Toml

/-! ## Lines -/

/-- Skips blanks, comments and ends of lines. -/
def skipLines (inComment : Bool) : List Char → List Char
  | [] => []
  | c :: rest =>
    if c == '\n' then skipLines false rest
    else if c == '\r' && rest.head? == some '\n' then skipLines inComment rest
    else if inComment then if isControl c then c :: rest else skipLines true rest
    else if isSpace c then skipLines false rest
    else if c == '#' then skipLines true rest
    else c :: rest

/-- Skips a comment, if there is one. -/
def skipComment (cs : List Char) : List Char :=
  if cs.head? = some '#' then cs.dropWhile (fun c => !isControl c) else cs

/-- The end of a line, or of the file. -/
def lineEnd? (cs : List Char) : Option (List Char) :=
  match skipComment (skipSpace cs) with
  | [] => some []
  | rest => afterNewline? rest

/-! ## Values -/

/-- A function that reads a value. -/
abbrev ValueReader := List Char → Option (Toml × List Char)

/-- The items of an array after its opening bracket or a comma. -/
def items (value : ValueReader) : (limit : Nat) → List Char → Option (List Toml × List Char)
  | 0, _ => none
  | limit + 1, cs => do
    match skipLines false cs with
    | ']' :: rest => return ([], rest)
    | rest =>
      let (first, rest) ← value rest
      match skipLines false rest with
      | ',' :: rest =>
        let (more, rest) ← items value limit rest
        return (first :: more, rest)
      | ']' :: rest => return ([first], rest)
      | _ => none

/-- A key with its value. -/
def assignment (value : ValueReader) (cs : List Char) :
    Option ((List String × Toml) × List Char) := do
  let (name, rest) ← key? cs
  match rest with
  | '=' :: rest =>
    let (content, rest) ← value (skipSpace rest)
    return ((name, content), rest)
  | _ => none

/-- The entries of an inline table after its opening brace or a comma. -/
def fields (value : ValueReader) :
    (limit : Nat) → Entries → List Char → Option (Entries × List Char)
  | 0, _, _ => none
  | limit + 1, entries, cs => do
    let ((name, content), rest) ← assignment value cs
    let entries ← Entries.put name content entries
    match skipSpace rest with
    | ',' :: rest => fields value limit entries rest
    | '\x7d' :: rest => return (entries, rest)
    | _ => none

/-- An inline table after its opening brace. -/
def inlineTable (value : ValueReader) (limit : Nat) (cs : List Char) :
    Option (Toml × List Char) :=
  match skipSpace cs with
  | '\x7d' :: rest => some (.table [], rest)
  | rest => (fields value limit [] rest).map fun (entries, rest) => (entries.toTable, rest)

/-- A value, in which arrays and inline tables are nested at most `depth` deep. -/
def value (limit : Nat) : (depth : Nat) → List Char → Option (Toml × List Char)
  | 0, cs =>
    match text? cs with
    | some (content, rest) => some (.text content, rest)
    | none => scalar? cs
  | depth + 1, cs =>
    match cs with
    | '[' :: rest =>
      (items (value limit depth) limit rest).map fun (items, rest) => (.array items, rest)
    | '\x7b' :: rest => inlineTable (value limit depth) limit rest
    | _ => value limit 0 cs

/-! ## Files -/

/-- A heading after its opening bracket, with the end of its line. -/
def heading (cs : List Char) : Option (Heading × List Char) := do
  match cs with
  | '[' :: rest =>
    let (name, rest) ← key? rest
    match rest with
    | ']' :: ']' :: rest => return (.tables name, ← lineEnd? rest)
    | _ => none
  | _ =>
    let (name, rest) ← key? cs
    match rest with
    | ']' :: rest => return (.table name, ← lineEnd? rest)
    | _ => none

/-- The sections of a file from the current one on. -/
def sections (size : Nat) : (limit : Nat) → Section → List Char → Option (List Section)
  | 0, _, _ => none
  | limit + 1, part, cs =>
    match skipLines false cs with
    | [] => some [part]
    | '[' :: rest => do
      let (next, rest) ← heading rest
      return part :: (← sections size limit { heading := next } rest)
    | rest => do
      let (entry, rest) ← assignment (value size depthLimit) rest
      sections size limit { part with values := part.values.push entry } (← lineEnd? rest)

/-- Reads a settings file, which may start with a byte order mark. -/
def read? (content : String) : Option Toml :=
  let cs := content.toList
  let cs := if cs.head? = some '\uFEFF' then cs.drop 1 else cs
  let size := cs.length + 1
  (sections size size {} cs).bind assemble

end CartScript.Toml
