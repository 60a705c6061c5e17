import CartScript.Code
import CartScript.Dictionary

/-!
# The registry of codes

All codes in the order of their declaration, and a table of the places of the codes of each name.  A
name may be used again only for other games, so a name and a game determine at most one code.
-/

namespace CartScript

structure Registry where
  codes : Array Code := #[]
  /-- The places of the codes of each name, in order. -/
  names : Dictionary (List Nat) := {}
  deriving Repr, DecidableEq, Inhabited

namespace Registry

def empty : Registry := {}

def size (r : Registry) : Nat := r.codes.size

/-- The code at a place. -/
def at? (r : Registry) (index : Nat) : Option Code := r.codes[index]?

/-- The places that the table of names has for a name. -/
def places (r : Registry) (name : String) : List Nat := (r.names.find? name).getD []

/-- The codes of a name, found by their places. -/
def named (r : Registry) (name : String) : List Code := (r.places name).filterMap r.at?

/-- The earliest code of the same name that some game has together with `c`. -/
def clash? (r : Registry) (c : Code) : Option Code := (r.named c.name).find? (·.sharesGame c)

/-- Puts a code at the end, and its place behind those of its name. -/
def push (r : Registry) (c : Code) : Registry where
  codes := r.codes.push { c with index := r.codes.size }
  names := r.names.put c.name (r.places c.name ++ [r.codes.size])

/-- Adds a code: whether it was taken, and the registry from then on.  Where another code stands in its
    way, the other's origin is the answer. -/
def insert (r : Registry) (c : Code) : Except String Unit × Registry :=
  match r.clash? c with
  | some d => (.error d.origin, r)
  | none => (.ok (), r.push c)

/-- The code of a name in a game. -/
def get? (r : Registry) (name game : String) : Option Code := (r.named name).find? (·.forGame game)

/-- Whether any game has a code of the name. -/
def contains (r : Registry) (name : String) : Bool := r.names.contains name

/-- The codes of a game, in order. -/
def forGame (r : Registry) (game : String) : List Code :=
  r.codes.toList.filter (·.forGame game)

end Registry

end CartScript
