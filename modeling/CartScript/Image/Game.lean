import CartScript.Dictionary
import CartScript.Image
import CartScript.Text.Utf8

/-!
# Games

The header of an image holds a code of four bytes that says which game it is.
-/

namespace CartScript

structure Game where
  code : String
  name : String
  deriving Repr, DecidableEq, Inhabited

/-- Why the game of an image is not known. -/
inductive GameFault where
  | noCode
  | unknown (code : String)
  deriving Repr, DecidableEq, Inhabited

def GameFault.message : GameFault → String
  | .noCode => "image is too small to carry a game code"
  | .unknown code => s!"unsupported game: \"{code}\""

/-- The names of games by their codes. -/
abbrev GameTable := Dictionary String

namespace GameTable

/-- The games that are always known. -/
def builtin : GameTable :=
  .ofList [("AFEJ", "FE6"), ("AE7E", "FE7"), ("BE8E", "FE8"), ("AE7J", "FE7J"), ("BE8J", "FE8J")]

/-- The games that are always known, with others added or renamed. -/
def withGames (games : List (String × String)) : GameTable :=
  games.foldl (fun table game => table.put game.1 game.2) builtin

end GameTable

namespace Game

/-- Where the code stands in the header. -/
def codeOffset : UInt32 := 0xAC

/-- The game of an image.  Bytes of the code that are no text are replaced. -/
def identify (image : Image) (table : GameTable) : Except GameFault Game :=
  match image.read? codeOffset 4 with
  | none => .error .noCode
  | some bytes =>
    let code := Utf8.decodeLossy bytes
    match table.find? code with
    | some name => .ok { code, name }
    | none => .error (.unknown code)

end Game

end CartScript
