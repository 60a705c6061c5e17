import CartScript.Assembly.OnePass
import CartScript.Assembly.TwoPass

/-!
# Engines
-/

namespace CartScript

/-- The engines that assemble programs. -/
inductive Engine where
  | twoPass
  | onePass
  deriving Repr, DecidableEq, Inhabited

namespace Engine

def name : Engine → String
  | .twoPass => "classic"
  | .onePass => "colorz"

/-- The engine of a name in exactly this spelling. -/
def ofName? : String → Option Engine
  | "classic" => some .twoPass
  | "colorz" => some .onePass
  | _ => none

/-- The engine of a name in any letter case. -/
def parse? (text : String) : Option Engine := ofName? (Text.lowerAscii text)

/-- What is said about a name that is no engine's. -/
def unknownMessage (text : String) : String := s!"unknown engine \"{text}\""

/-- Assembles a program into an image. -/
def assemble : Engine → Program → Assembly.Context → Image → Log → Image × Log
  | .twoPass => Assembly.TwoPass.assemble
  | .onePass => Assembly.OnePass.assemble

end Engine

end CartScript
