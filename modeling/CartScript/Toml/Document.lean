import CartScript.Toml.Value

/-!
# Settings files as sections

A settings file consists of sections.  The first has no heading; the heading of another one names
the table that its values go to, or the array of tables that gets one more table.  `Toml.assemble`
puts the sections together and refuses a file that says something twice:

* a value is given once,
* a table has one heading, and may have got it after the headings of tables inside it,
* a table that was made by dotted keys has no heading, and dotted keys extend only such tables.
-/

namespace CartScript.Toml

/-- How a table came about, which decides how it may be extended. -/
inductive Origin where
  /-- By a heading of its own. -/
  | heading
  /-- By the heading of a table inside it. -/
  | implied
  /-- By a dotted key. -/
  | dotted
  deriving Repr, DecidableEq, Inhabited

/-- An entry of a table under construction.  The entries of a table are kept newest first. -/
inductive Entry where
  | value (value : Toml)
  | table (origin : Origin) (entries : List (String × Entry))
  /-- An array of tables: the finished ones, newest first, and the one that is extended. -/
  | tables (finished : List Toml) (last : List (String × Entry))
  deriving Repr, Inhabited

mutual

/-- The value of an entry. -/
def Entry.toValue : Entry → Toml
  | .value v => v
  | .table _ entries => .table (Entry.toValues entries).reverse
  | .tables finished last => .array (.table (Entry.toValues last).reverse :: finished).reverse

/-- The values of entries, newest first. -/
def Entry.toValues : List (String × Entry) → List (String × Toml)
  | [] => []
  | (name, entry) :: rest => (name, entry.toValue) :: Entry.toValues rest

end

/-- The entries of a table under construction, newest first. -/
abbrev Entries := List (String × Entry)

namespace Entries

/-- The finished table. -/
def toTable (entries : Entries) : Toml := .table (Entry.toValues entries).reverse

/-- Puts an entry in the place of the one of its name. -/
def replace (name : String) (entry : Entry) (entries : Entries) : Entries :=
  entries.map fun (key, old) => if key = name then (key, entry) else (key, old)

/-- Removes the entry of a name. -/
def remove (name : String) (entries : Entries) : Entries := entries.filter (·.1 ≠ name)

/-- Adds a value under a dotted key.  The parts of the key before the last name tables that have no
    heading; the last one of these is made by dotted keys alone. -/
def put : (key : List String) → Toml → Entries → Option Entries
  | [], _, _ => none
  | [name], value, entries =>
    if (entries.lookup name).isSome then none else some ((name, .value value) :: entries)
  | name :: key, value, entries =>
    match entries.lookup name with
    | none => (put key value []).map fun inner => (name, .table .dotted inner) :: entries
    | some (.table .dotted inner) =>
      (put key value inner).map fun inner => replace name (.table .dotted inner) entries
    | some (.table .implied inner) =>
      if key.length = 1 then none
      else (put key value inner).map fun inner => replace name (.table .implied inner) entries
    | some (.tables finished last) =>
      if key.length = 1 then none
      else (put key value last).map fun last => replace name (.tables finished last) entries
    | some (.table .heading _) | some (.value _) => none

/-- Goes to the table that a heading's last name belongs in, and changes it. -/
def under (change : String → Entries → Option Entries) : (key : List String) → Entries → Option Entries
  | [], _ => none
  | [name], entries => change name entries
  | name :: key, entries =>
    match entries.lookup name with
    | none => (under change key []).map fun inner => (name, .table .implied inner) :: entries
    | some (.table origin inner) =>
      (under change key inner).map fun inner => replace name (.table origin inner) entries
    | some (.tables finished last) =>
      (under change key last).map fun last => replace name (.tables finished last) entries
    | some (.value _) => none

/-- Gives a table its heading and fills it.  It comes after all entries there are. -/
def openTable (fill : Entries → Option Entries) (name : String) (entries : Entries) :
    Option Entries :=
  match entries.lookup name with
  | none => (fill []).map fun inner => (name, .table .heading inner) :: entries
  | some (.table .implied inner) =>
    (fill inner).map fun inner => (name, .table .heading inner) :: remove name entries
  | some _ => none

/-- Adds a table to an array of tables and fills it. -/
def appendTable (fill : Entries → Option Entries) (name : String) (entries : Entries) :
    Option Entries :=
  match entries.lookup name with
  | none => (fill []).map fun last => (name, .tables [] last) :: entries
  | some (.tables finished last) =>
    (fill []).map fun next => replace name (.tables (toTable last :: finished) next) entries
  | some _ => none

end Entries

/-- What the heading of a section names. -/
inductive Heading where
  /-- The start of the file has no heading. -/
  | none
  | table (key : List String)
  /-- An array of tables. -/
  | tables (key : List String)
  deriving Repr, DecidableEq, Inhabited

/-- A part of a settings file: a heading and the values under it. -/
structure Section where
  heading : Heading := .none
  values : Array (List String × Toml) := #[]
  deriving Repr, Inhabited

namespace Section

/-- Adds the values of a section to a table. -/
def fill (part : Section) (entries : Entries) : Option Entries :=
  part.values.foldlM (fun entries (key, value) => Entries.put key value entries) entries

/-- Adds a section to the table of the whole file. -/
def addTo (entries : Entries) (part : Section) : Option Entries :=
  match part.heading with
  | .none => part.fill entries
  | .table key => entries.under (Entries.openTable part.fill) key
  | .tables key => entries.under (Entries.appendTable part.fill) key

end Section

/-- Puts the sections of a file together. -/
def assemble (parts : List Section) : Option Toml :=
  (parts.foldlM Section.addTo []).map Entries.toTable

end CartScript.Toml
