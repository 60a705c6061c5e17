import CartScript.Text.Blank

/-!
# Paths

A path is a text as users write it; a route is a place in a file tree, the names from the root on.
-/

namespace CartScript

/-- A path as written: names between slashes, absolute if it starts with one. -/
abbrev Path := String

/-- A place in a file tree: the names from the root on. -/
abbrev Route := List String

namespace Path

def isAbsolute (path : Path) : Bool := path.toList.head? == some '/'

/-- The names of a path between its slashes, empty ones kept. -/
def names (path : Path) : List String :=
  (Text.splitBy (· == '/') path.toList).map String.ofList

/-- The path of `name` seen from the directory `base`.  An absolute name stands for itself. -/
def join (base name : Path) : Path :=
  if isAbsolute name then name
  else if base.toList.getLast?.all (· == '/') then base ++ name
  else base ++ "/" ++ name

/-- What follows the last dot of a file's name.  A dot at the start does not count. -/
def extension? (fileName : String) : Option String :=
  let reversed := fileName.toList.reverse
  match Text.cut? '.' reversed with
  | some (_, []) => none
  | some (ending, _) => some (String.ofList ending.reverse)
  | none => none

end Path

namespace Route

/-- The absolute path of a route. -/
def render (route : Route) : Path := "/" ++ "/".intercalate route

/-- The directory that holds the place. -/
def parent (route : Route) : Route := route.dropLast

end Route

end CartScript
