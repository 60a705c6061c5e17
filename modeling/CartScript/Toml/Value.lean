/-!
# Values of settings files

A settings file is a table of named values, some of which are tables again.
-/

namespace CartScript

/-- A value of a settings file. -/
inductive Toml where
  | text (content : String)
  | integer (value : Int64)
  | boolean (value : Bool)
  | float
  /-- A date, a time of day or both, in its usual spelling. -/
  | moment (spelling : String)
  | array (items : List Toml)
  | table (entries : List (String × Toml))
  deriving Repr, Inhabited

namespace Toml

/-- The name under which the spelling of a date stands where a table is asked for. -/
def momentName : String := "$__toml_private_datetime"

/-- The entries of a table.  A date counts as a table of its spelling. -/
def entries? : Toml → Option (List (String × Toml))
  | .table entries => some entries
  | .moment spelling => some [(momentName, .text spelling)]
  | _ => none

/-- Whether a value is an empty table or array. -/
def isEmpty : Toml → Bool
  | .table entries => entries.isEmpty
  | .array items => items.isEmpty
  | _ => false

end Toml

end CartScript
