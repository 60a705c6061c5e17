import CartScript.Code.Record
import CartScript.Files.Tree
import CartScript.Registry

/-!
# Loading definition files

A definition file holds records of codes, each followed by the records of its parameters, which are
indented.  `## ` lines document the code that follows them; `#include "file"` reads another file in
place.  A file is read once, at its first mention.

* `Registry.loadText` reads definitions held in memory,
* `Registry.loadFile` reads a file and what it includes,
* `Registry.loadDirectory` reads the files of a directory that have a given extension.
-/

namespace CartScript

/-- Why definitions cannot be turned into a registry. -/
inductive LoadFault where
  | unreadable (path : Path) (fault : FileFault)
  | malformed (file : String) (line : Nat) (fault : RecordFault)
  | duplicate (file : String) (line : Nat) (name earlier : String)
  | includeCycle (path : Path)
  | noFiles (path : Path)
  /-- The files are nested more deeply than there are files. -/
  | tooDeep (path : Path)
  deriving Repr, DecidableEq

def LoadFault.message : LoadFault → String
  | .unreadable path fault => s!"{path}: cant read definitions: {fault.message}"
  | .malformed file line fault => s!"{file}:{line}: {fault.message}"
  | .duplicate file line name earlier =>
    s!"{file}:{line}: code \"{name}\" is already defined at {earlier}"
  | .includeCycle path => s!"{path}: definition include cycle"
  | .noFiles path => s!"{path}: no definition files found"
  | .tooDeep path => s!"{path}: definitions are nested too deeply"

/-- Definitions that are being read. -/
structure Loader where
  registry : Registry := {}
  /-- The files that are being read, the innermost first. -/
  reading : List Route := []
  /-- The files that were ever begun. -/
  begun : List Route := []
  deriving Repr, DecidableEq

namespace Loader

/-- Reads the file of a path into the loader. -/
abbrev ReadFile := Loader → Path → Except LoadFault Loader

/-- Puts a finished code into the registry. -/
def finish (loader : Loader) (file : String) (pending : Option Pending) : Except LoadFault Loader :=
  match pending with
  | none => .ok loader
  | some pending =>
    match pending.finish with
    | .error fault => .error (.malformed file pending.line fault)
    | .ok code =>
      match loader.registry.insert code with
      | (.error earlier, _) => .error (.duplicate file pending.line code.name earlier)
      | (.ok (), registry) => .ok { loader with registry }

/-- The text between two quotes, if there is nothing else. -/
def quoted? (text : List Char) : Option (List Char) :=
  match Text.trim text with
  | '"' :: rest =>
    match Text.cut? '"' rest with
    | some (name, after) => if (Text.trim after).isEmpty then some name else none
    | none => none
  | _ => none

/-- What a line of a definition file is. -/
inductive Line where
  | skip
  | doc (text : List Char)
  | includes (rest : List Char)
  | param (text : List Char)
  | code (text : List Char)
  deriving Repr, DecidableEq

/-- Classes a line by its first characters. -/
def Line.classify (raw : List Char) : Line :=
  let text := Text.trim raw
  match Text.after? "##".toList text with
  | some rest => .doc (Text.trim rest)
  | none =>
    if text.isEmpty || "//".toList.isPrefixOf text || text.head? == some ';' then .skip
    else match Text.after? "#include".toList text with
      | some rest => .includes rest
      | none => if raw.head?.any Text.isBlank then .param text else .code text

/-- A file that is being read: the code whose parameters may follow, and the documentation for the
    next code. -/
structure FileState where
  loader : Loader
  pending : Option Pending := none
  doc : Option String := none

/-- Adds a line to the documentation. -/
def addDoc (doc : Option String) (text : List Char) : String :=
  match doc with
  | some earlier => earlier ++ "\n" ++ String.ofList text
  | none => String.ofList text

/-- Reads one line.  Includes are looked up from the directory `base`. -/
def readLine (readFile : ReadFile) (file : String) (base : Path) (state : FileState) (number : Nat)
    (raw : List Char) : Except LoadFault FileState :=
  match Line.classify raw with
  | .skip => .ok state
  | .doc text => .ok { state with doc := some (addDoc state.doc text) }
  | .includes rest => do
    let loader ← state.loader.finish file state.pending
    match quoted? rest with
    | none => .error (.malformed file number .expectedFile)
    | some name =>
      let loader ← readFile loader (Path.join base (String.ofList name))
      .ok { state with loader, pending := none }
  | .param text =>
    match state.pending with
    | none => .error (.malformed file number .paramOutsideCode)
    | some pending =>
      match Record.param text with
      | .error fault => .error (.malformed file number fault)
      | .ok param =>
        let code := { pending.code with params := pending.code.params ++ [param] }
        .ok { state with pending := some { pending with code } }
  | .code text => do
    let loader ← state.loader.finish file state.pending
    match Record.code file number text with
    | .error fault => .error (.malformed file number fault)
    | .ok next =>
      .ok { loader, pending := some { next with code := { next.code with doc := state.doc } } }

/-- Reads lines, the first of which has the given number. -/
def readLines (readFile : ReadFile) (file : String) (base : Path) :
    (number : Nat) → List (List Char) → FileState → Except LoadFault FileState
  | _, [], state => .ok state
  | number, raw :: lines, state =>
    match readLine readFile file base state number raw with
    | .error fault => .error fault
    | .ok state => readLines readFile file base (number + 1) lines state

/-- Reads definitions from a text. -/
def readText (readFile : ReadFile) (loader : Loader) (file text : String) (base : Path) :
    Except LoadFault Loader :=
  match readLines readFile file base 1 (Text.lines text.toList) { loader } with
  | .error fault => .error fault
  | .ok state => state.loader.finish file state.pending

/-- Reads a file, unless it was begun before.  A file that is still being read must not be mentioned
    again; `depth` bounds how deeply files may be nested. -/
def readFile (tree : FileTree) : (depth : Nat) → ReadFile
  | 0, _, path => .error (.tooDeep path)
  | depth + 1, loader, path =>
    match tree.resolve path with
    | .error fault => .error (.unreadable path fault)
    | .ok route =>
      if loader.reading.contains route then .error (.includeCycle route.render)
      else if loader.begun.contains route then .ok loader
      else match tree.openTextAt route with
        | .error fault => .error (.unreadable route.render fault)
        | .ok text =>
          let inner := { loader with reading := route :: loader.reading,
                                     begun := route :: loader.begun }
          match readText (readFile tree depth) inner path text route.parent.render with
          | .error fault => .error fault
          | .ok done => .ok { done with reading := loader.reading }

end Loader

namespace Registry

/-- Every file of the tree can be open once, so nesting is never deeper. -/
def loadDepth (tree : FileTree) : Nat := tree.size + 1

/-- Reads definitions held in memory.  Includes are looked up from the work directory. -/
def loadText (tree : FileTree) (name text : String) : Except LoadFault Registry :=
  (Loader.readText (Loader.readFile tree (loadDepth tree)) {} name text ".").map Loader.registry

/-- Reads a definition file and what it includes. -/
def loadFile (tree : FileTree) (path : Path) : Except LoadFault Registry :=
  (Loader.readFile tree (loadDepth tree) {} path).map Loader.registry

/-- The files of a directory with the given extension, in the order of their names. -/
def definitionFiles (tree : FileTree) (directory : Path) (extension : String) (names : List String) :
    List Path :=
  let extension := String.ofList (extension.toList.dropWhile (· == '.'))
  let chosen := names.filter fun name =>
    tree.isFile (Path.join directory name) && Path.extension? name == some extension
  (chosen.mergeSort fun a b => a ≤ b).map (Path.join directory)

/-- Reads the files of a directory that have the given extension. -/
def loadDirectory (tree : FileTree) (directory : Path) (extension : String) :
    Except LoadFault Registry :=
  match tree.list directory with
  | .error fault => .error (.unreadable directory fault)
  | .ok names =>
    match definitionFiles tree directory extension names with
    | [] => .error (.noFiles directory)
    | paths => (paths.foldlM (Loader.readFile tree (loadDepth tree)) {}).map Loader.registry

end Registry

end CartScript
