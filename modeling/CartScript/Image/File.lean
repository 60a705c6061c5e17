import CartScript.Files.Tree
import CartScript.Image

/-!
# Images in files

An image is opened for one operation at a time: while it is open, opening the same file again fails,
by whatever path.  The places of the open images are their *claims*.
-/

namespace CartScript

/-- An open image. -/
structure ImageFile where
  route : Route
  image : Image
  deriving Repr, DecidableEq, Inhabited

/-- Why an image cannot be opened. -/
inductive OpenFault where
  | file (fault : FileFault)
  | inUse (path : Path)
  deriving Repr, DecidableEq, Inhabited

def OpenFault.message : OpenFault → String
  | .file fault => fault.message
  | .inUse path => s!"{path}: image is already opened by another operation"

/-- The places of the open images. -/
abbrev Claims := List Route

namespace Claims

/-- Claims a place that is not claimed yet. -/
def take? (claims : Claims) (route : Route) : Option Claims :=
  if claims.contains route then none else some (claims ++ [route])

/-- Gives up the claims of a place. -/
def release (claims : Claims) (route : Route) : Claims := claims.filter (· != route)

end Claims

/-- The answer to a request for the lock of a file. -/
inductive LockAnswer where
  | granted
  /-- Someone else has the lock. -/
  | blocked
  | failed (fault : FileFault)
  deriving Repr, DecidableEq, Inhabited

/-- What a file system answers to the steps of an opening. -/
structure FileSystem where
  resolve : Path → Except FileFault Route
  /-- Makes the file at a place accessible for reading and writing. -/
  access : Route → Except FileFault Unit
  lock : Route → LockAnswer
  read : Route → Except FileFault Image

/-- A file tree in which nobody else has a lock. -/
def FileTree.system (tree : FileTree) : FileSystem where
  resolve := tree.resolve
  access route := (tree.readAt route).map fun _ => ()
  lock _ := .granted
  read := tree.readAt

namespace ImageFile

/-- Reads the image at a claimed place, under the lock of its file. -/
def load (system : FileSystem) (route : Route) : Except OpenFault ImageFile :=
  match system.access route with
  | .error fault => .error (.file fault)
  | .ok () =>
    match system.lock route with
    | .failed fault => .error (.file fault)
    | .blocked => .error (.inUse route.render)
    | .granted =>
      match system.read route with
      | .error fault => .error (.file fault)
      | .ok image => .ok { route, image }

/-- Opens an image and says which claims there are then.  The place is claimed first, and the claim is
    given up if a later step fails. -/
def attempt (system : FileSystem) (claims : Claims) (path : Path) :
    Except OpenFault ImageFile × Claims :=
  match system.resolve path with
  | .error fault => (.error (.file fault), claims)
  | .ok route =>
    match claims.take? route with
    | none => (.error (.inUse route.render), claims)
    | some claimed =>
      match load system route with
      | .error fault => (.error fault, claimed.release route)
      | .ok file => (.ok file, claimed)

/-- Opens an image that is not open yet. -/
def openAt (tree : FileTree) (claims : Claims) (path : Path) :
    Except OpenFault (ImageFile × Claims) :=
  let (outcome, claims) := attempt tree.system claims path
  outcome.map fun file => (file, claims)

/-- Gives up the claim of an open image. -/
def close (f : ImageFile) (claims : Claims) : Claims := claims.release f.route

/-- Writes the image back. -/
def save (f : ImageFile) (tree : FileTree) : FileTree := tree.put f.route (.file f.image)

/-- Writes the image to another file. -/
def saveAs (f : ImageFile) (tree : FileTree) (path : Path) : Except FileFault FileTree :=
  tree.write path f.image

end ImageFile

end CartScript
