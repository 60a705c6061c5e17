import CartScript.Registry.Load
import CartScript.Settings

/-!
# What a command does

A command works on a file tree.  It prints a text, reports events and may change files.
-/

namespace CartScript.Command

/-- How important an event is. -/
inductive Level where
  | error
  | warn
  | info
  | debug
  | trace
  deriving Repr, DecidableEq, Inhabited

namespace Level

def name : Level → String
  | .error => "ERROR"
  | .warn => "WARN"
  | .info => "INFO"
  | .debug => "DEBUG"
  | .trace => "TRACE"

/-- The place in the order of levels, the most important first. -/
def rank : Level → Nat
  | .error => 1
  | .warn => 2
  | .info => 3
  | .debug => 4
  | .trace => 5

def all : List Level := [.error, .warn, .info, .debug, .trace]

/-- The level of a name in any letter case, or of its rank. -/
def parse? (text : String) : Option Level :=
  match Digits.read Digits.unsigned64 10 text.toList with
  | .ok n => all.find? fun level => (level.rank : Int) == n
  | .error _ => all.find? fun level => Text.lowerAscii level.name == Text.lowerAscii text

/-- The level of a diagnostic. -/
def ofSeverity : Severity → Level
  | .error => .error
  | .warning => .warn
  | .message => .info

end Level

structure Event where
  level : Level
  /-- The part of the program that reports it. -/
  target : String
  text : String
  deriving Repr, DecidableEq, Inhabited

namespace Event

/-- Control characters that a terminal takes for commands. -/
def commands : List Char := ['\x07', '\x08', '\x0c', '\x1b', '\x7f']

/-- A character as it is shown: the ones that a terminal takes for commands are given by their
    numbers. -/
def showChar (c : Char) : List Char :=
  let digits := Nat.toDigits 16 c.toNat
  if commands.contains c then
    '\\' :: 'x' :: (List.replicate (2 - digits.length) '0' ++ digits)
  else if 0x80 ≤ c.toNat ∧ c.toNat ≤ 0x9F then '\\' :: 'u' :: '\x7b' :: digits ++ ['\x7d']
  else [c]

def showText (text : String) : String := String.ofList (text.toList.flatMap showChar)

/-- `LEVEL target: text`. -/
def render (e : Event) : String := s!"{e.level.name} {e.target}: {showText e.text}"

end Event

/-- The events of a log. -/
def logEvents (log : Log) : List Event :=
  log.entries.map fun d => ⟨.ofSeverity d.severity, "eventasm::log", d.render⟩

/-- What came of a command that was run. -/
structure Outcome where
  /-- Why it failed, if it did. -/
  failure : Option String := none
  output : String := ""
  events : List Event := []
  tree : FileTree
  deriving Repr, DecidableEq, Inhabited

namespace Outcome

/-- A failure before anything was done. -/
def failed (tree : FileTree) (text : String) : Outcome := { failure := some text, tree }

def exitCode (o : Outcome) : Nat := if o.failure.isSome then 1 else 0

/-- The events that are shown: those of a level that is important enough, and last the failure. -/
def shown (o : Outcome) (tool : String) (level : Level) : List Event :=
  let failure := o.failure.toList.map fun text => ⟨.error, tool, text⟩
  (o.events ++ failure).filter fun e => e.level.rank ≤ level.rank

end Outcome

/-- The codes of a definition file, or of a directory of them. -/
def loadRegistry (tree : FileTree) (path : Path) (extension : String) :
    Except LoadFault Registry :=
  if tree.isDirectory path then Registry.loadDirectory tree path extension
  else Registry.loadFile tree path

/-- The settings of a file, or the usual ones. -/
def loadSettings (tree : FileTree) : Option Path → Except String Settings
  | none => .ok {}
  | some path =>
    match tree.readText path with
    | .error fault => .error fault.message
    | .ok content => (Settings.parse content).mapError SettingsFault.message

/-- A number as an image offset. -/
def offsetOf (value : Int64) (message : String) : Except String UInt32 :=
  if 0 ≤ value.toInt ∧ value.toInt < 0x100000000 then .ok (UInt32.ofNat value.toInt.toNat)
  else .error message

end CartScript.Command
