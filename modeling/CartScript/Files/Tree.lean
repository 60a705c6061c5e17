import CartScript.Files.Path
import CartScript.Text.Utf8

/-!
# File trees

A `FileTree` is a file system as a value: directories and files by their routes, and the directory
in which relative paths start.  A path leads somewhere only if every directory on it exists, also
one that is left again by `..`.
-/

namespace CartScript

/-- Why a file cannot be used. -/
inductive FileFault where
  | notFound
  | isDirectory
  | notDirectory
  | notText
  | nameTooLong
  /-- A name holds the character of number zero, which no name may have. -/
  | zeroInName
  deriving Repr, DecidableEq, Inhabited

def FileFault.message : FileFault → String
  | .notFound => "No such file or directory (os error 2)"
  | .isDirectory => "Is a directory (os error 21)"
  | .notDirectory => "Not a directory (os error 20)"
  | .notText => "stream did not contain valid UTF-8"
  | .nameTooLong => "File name too long (os error 36)"
  | .zeroInName => "file name contained an unexpected NUL byte"

/-- What stands at a place of a file tree. -/
inductive FileEntry where
  | directory
  | file (content : Array UInt8)
  deriving Repr, DecidableEq, Inhabited

structure FileTree where
  entries : List (Route × FileEntry) := []
  /-- Where relative paths start. -/
  workDir : Route := []
  deriving Repr, DecidableEq, Inhabited

namespace FileTree

/-- What stands at a place.  The root is always a directory. -/
def entry? (tree : FileTree) (route : Route) : Option FileEntry :=
  if route = [] then some .directory else tree.entries.lookup route

/-- Puts an entry at a place, in the place of what stood there. -/
def put (tree : FileTree) (route : Route) (entry : FileEntry) : FileTree :=
  { tree with
    entries := tree.entries.filter (fun old => old.1 != route) ++ [(route, entry)] }

/-- How many bytes a name may have. -/
def nameLimit : Nat := 255

/-- How many bytes a path may have. -/
def pathLimit : Nat := 4095

/-- Whether a path is one at all. -/
def checkPath (path : Path) : Except FileFault Unit :=
  if path.toList.contains '\x00' then .error .zeroInName
  else if path = "" then .error .notFound
  else if pathLimit < path.utf8ByteSize then .error .nameTooLong
  else .ok ()

/-- Follows names from a place. -/
def walk (tree : FileTree) : Route → List String → Except FileFault Route
  | here, [] => .ok here
  | here, name :: names =>
    match tree.entry? here with
    | none => .error .notFound
    | some (.file _) => .error .notDirectory
    | some .directory =>
      if name = "" ∨ name = "." then tree.walk here names
      else if name = ".." then tree.walk here.parent names
      else if nameLimit < name.utf8ByteSize then .error .nameTooLong
      else if (tree.entry? (here ++ [name])).isSome then tree.walk (here ++ [name]) names
      else .error .notFound

/-- Where a path starts. -/
def start (tree : FileTree) (path : Path) : Route :=
  if Path.isAbsolute path then [] else tree.workDir

/-- The place that a path leads to. -/
def resolve (tree : FileTree) (path : Path) : Except FileFault Route :=
  match checkPath path with
  | .ok () => tree.walk (tree.start path) (Path.names path)
  | .error fault => .error fault

/-- What a path leads to. -/
def find? (tree : FileTree) (path : Path) : Option FileEntry :=
  (tree.resolve path).toOption.bind tree.entry?

def isFile (tree : FileTree) (path : Path) : Bool :=
  match tree.find? path with
  | some (.file _) => true
  | _ => false

def isDirectory (tree : FileTree) (path : Path) : Bool := tree.find? path = some .directory

/-- The content of the file at a place. -/
def readAt (tree : FileTree) (route : Route) : Except FileFault (Array UInt8) :=
  match tree.entry? route with
  | some (.file content) => .ok content
  | some .directory => .error .isDirectory
  | none => .error .notFound

/-- The content of a file. -/
def read (tree : FileTree) (path : Path) : Except FileFault (Array UInt8) :=
  match tree.resolve path with
  | .ok route => tree.readAt route
  | .error fault => .error fault

/-- The content of the file at a place, as text. -/
def readTextAt (tree : FileTree) (route : Route) : Except FileFault String :=
  match tree.readAt route with
  | .ok content =>
    match Utf8.decode? content.toList with
    | some text => .ok text
    | none => .error .notText
  | .error fault => .error fault

/-- The content of the file at a place, as text, opened by the absolute path of the place. -/
def openTextAt (tree : FileTree) (route : Route) : Except FileFault String :=
  match checkPath route.render with
  | .ok () => tree.readTextAt route
  | .error fault => .error fault

/-- The content of a file, as text. -/
def readText (tree : FileTree) (path : Path) : Except FileFault String :=
  match tree.resolve path with
  | .ok route => tree.readTextAt route
  | .error fault => .error fault

/-- The names in the directory at a place. -/
def namesAt (tree : FileTree) (route : Route) : List String :=
  tree.entries.filterMap fun entry =>
    if entry.1.parent = route then entry.1.getLast? else none

/-- The names in a directory, in no particular order. -/
def list (tree : FileTree) (path : Path) : Except FileFault (List String) :=
  match tree.resolve path with
  | .error fault => .error fault
  | .ok route =>
    match tree.entry? route with
    | some .directory => .ok (tree.namesAt route)
    | _ => .error .notDirectory

/-- The place of a file that is to be made: its directory must exist.  A path that ends in a slash is
one of a directory. -/
def placeFor (tree : FileTree) (path : Path) : Except FileFault Route :=
  let names := Path.names path
  match names.reverse.dropWhile (· = "") with
  | [] => .error .notFound
  | name :: before =>
    match tree.walk (tree.start path) before.reverse with
    | .error fault => .error fault
    | .ok directory =>
      match tree.entry? directory with
      | some .directory =>
        if names.getLast? = some "" then .error .isDirectory
        else if nameLimit < name.utf8ByteSize then .error .nameTooLong
        else .ok (directory ++ [name])
      | _ => .error .notDirectory

/-- Writes a file, which is made if it is not there. -/
def write (tree : FileTree) (path : Path) (content : Array UInt8) : Except FileFault FileTree :=
  match tree.resolve path with
  | .ok route =>
    match tree.entry? route with
    | some .directory => .error .isDirectory
    | _ => .ok (tree.put route (.file content))
  | .error _ =>
    match checkPath path with
    | .error fault => .error fault
    | .ok () =>
      match tree.placeFor path with
      | .ok route => .ok (tree.put route (.file content))
      | .error fault => .error fault

/-- Makes a directory and all those on the way to it. -/
def makeDirectories (tree : FileTree) (route : Route) : FileTree :=
  (List.range route.length).foldl
    (fun tree n =>
      let place := route.take (n + 1)
      if (tree.entry? place).isSome then tree else tree.put place .directory)
    tree

/-- Adds a file with the directories on the way to it. -/
def addFile (tree : FileTree) (route : Route) (content : Array UInt8) : FileTree :=
  (tree.makeDirectories route.parent).put route (.file content)

/-- How many files and directories there are. -/
def size (tree : FileTree) : Nat := tree.entries.length

end FileTree

end CartScript
