import CartScript.Assembly.Engine
import CartScript.Image.Game
import CartScript.Number
import CartScript.Toml.Reader

/-!
# Settings

Settings hold for all jobs of a session and are normally read from a file.  A number in the file may
also be given as a text in any spelling of a number.
-/

namespace CartScript

structure Settings where
  engine : Engine := .twoPass
  warningsAreErrors : Bool := false
  /-- The address of the image. -/
  pointerBase : UInt32 := 0x08000000
  freeSpace : FreeSpacePolicy := {}
  /-- Games besides those that are always known, by their codes. -/
  games : List (String × String) := []
  deriving Repr, DecidableEq, Inhabited

/-- What is wrong with a settings file. -/
inductive SettingsFault where
  | malformed
  | unknownKey (name : String)
  | wrongType (name : String)
  | notNumber (text : String)
  | notAddress (value : Int64)
  | notByte (value : Int64)
  | notSize (value : Int64)
  deriving Repr, DecidableEq, Inhabited

def SettingsFault.message : SettingsFault → String
  | .malformed => "malformed settings"
  | .unknownKey name => s!"unknown setting \"{name}\""
  | .wrongType name => s!"setting \"{name}\" has the wrong type"
  | .notNumber text => Number.invalidMessage text
  | .notAddress value => s!"{value.toInt} is not a valid address"
  | .notByte value => s!"{value.toInt} is not a valid byte"
  | .notSize value => s!"{value.toInt} is not a valid size"

namespace Settings

/-- All games that are known. -/
def gameTable (s : Settings) : GameTable := .withGames s.games

/-! ## Values of a settings file -/

/-- A number, bare or as a text. -/
def number (name : String) : Toml → Except SettingsFault Int64
  | .integer value => .ok value
  | .text content =>
    match Number.parse? content with
    | some value => .ok value
    | none => .error (.notNumber content)
  | _ => .error (.wrongType name)

def address (name : String) (t : Toml) : Except SettingsFault UInt32 := do
  let value ← number name t
  if 0 ≤ value.toInt ∧ value.toInt < 0x100000000 then .ok (UInt32.ofNat value.toInt.toNat)
  else .error (.notAddress value)

def byte (name : String) (t : Toml) : Except SettingsFault UInt8 := do
  let value ← number name t
  if 0 ≤ value.toInt ∧ value.toInt < 0x100 then .ok (UInt8.ofNat value.toInt.toNat)
  else .error (.notByte value)

def size (name : String) (t : Toml) : Except SettingsFault Nat := do
  let value ← number name t
  if 0 ≤ value.toInt then .ok value.toInt.toNat else .error (.notSize value)

def truth (name : String) : Toml → Except SettingsFault Bool
  | .boolean value => .ok value
  | _ => .error (.wrongType name)

def text (name : String) : Toml → Except SettingsFault String
  | .text content => .ok content
  | _ => .error (.wrongType name)

/-- A choice among words: one of them as a text, or as the only entry of a table with nothing
    in it. -/
def choice {α : Type} (name : String) (meaning : String → Option α) (t : Toml) :
    Except SettingsFault α :=
  let word? := match t with
    | .text content => some content
    | .table [(content, inside)] => if inside.isEmpty then some content else none
    | _ => none
  match word?.bind meaning with
  | some a => .ok a
  | none => .error (.wrongType name)

def strategyOf? : String → Option Strategy
  | "first-fit" => some .firstFit
  | "best-fit" => some .bestFit
  | _ => none

/-- Sets one value of the policy for free space. -/
def setFreeSpace (policy : FreeSpacePolicy) (entry : String × Toml) :
    Except SettingsFault FreeSpacePolicy := do
  let (name, t) := entry
  match name with
  | "byte" => return { policy with byte := ← byte name t }
  | "start" => return { policy with start := ← size name t }
  | "min_run" => return { policy with minRun := ← size name t }
  | "align" => return { policy with align := alignment (← size name t) }
  | "strategy" => return { policy with strategy := ← choice name strategyOf? t }
  | "wrap" => return { policy with wrap := ← truth name t }
  | _ => .error (.unknownKey name)

/-- The names of the values of the policy, in the order of an array of them. -/
def freeSpaceNames : List String := ["byte", "start", "min_run", "align", "strategy", "wrap"]

/-- The policy for free space: a table, or an array of its first values. -/
def freeSpaceOf (name : String) : Toml → Except SettingsFault FreeSpacePolicy
  | .array items => (freeSpaceNames.zip items).foldlM setFreeSpace {}
  | t =>
    match t.entries? with
    | some entries => entries.foldlM setFreeSpace {}
    | none => .error (.wrongType name)

/-- Games by their codes. -/
def gamesOf (name : String) (t : Toml) : Except SettingsFault (List (String × String)) :=
  match t.entries? with
  | some entries => entries.mapM fun (code, t) => return (code, ← text code t)
  | none => .error (.wrongType name)

/-- Sets one value. -/
def set (s : Settings) (entry : String × Toml) : Except SettingsFault Settings := do
  let (name, t) := entry
  match name with
  | "engine" => return { s with engine := ← choice name Engine.ofName? t }
  | "warnings_are_errors" => return { s with warningsAreErrors := ← truth name t }
  | "pointer_base" => return { s with pointerBase := ← address name t }
  | "free_space" => return { s with freeSpace := ← freeSpaceOf name t }
  | "games" => return { s with games := ← gamesOf name t }
  | _ => .error (.unknownKey name)

/-- Reads a settings file. -/
def parse (content : String) : Except SettingsFault Settings :=
  match Toml.read? content with
  | some (.table entries) => entries.foldlM set {}
  | _ => .error .malformed

end Settings

end CartScript
