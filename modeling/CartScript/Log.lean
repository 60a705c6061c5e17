import CartScript.Position
import CartScript.Text.Digits

/-!
# Diagnostics

A `Log` holds the diagnostics of a job; `Log.entries` lists them, oldest first.  A job fails when its log holds a
failing diagnostic: an error, or a warning while warnings count as errors.
-/

namespace CartScript

/-- How grave a diagnostic is. -/
inductive Severity where
  | message
  | warning
  | error
  deriving Repr, DecidableEq, Inhabited

/-- The word for a severity in diagnostics. -/
def Severity.name : Severity → String
  | .message => "message"
  | .warning => "warning"
  | .error => "error"

/-- Where a diagnostic points: nowhere, into a script, or at a byte of the image. -/
inductive Location where
  | none
  | script (position : Position)
  | image (offset : UInt32)
  deriving Repr, DecidableEq, Inhabited

/-- An image offset as diagnostics show it. -/
def renderOffset (offset : UInt32) : String := "$" ++ hexPadded 8 offset.toNat

/-- The text of a location, if it has one. -/
def Location.render? : Location → Option String
  | .none => Option.none
  | .script position => some position.render
  | .image offset => some (renderOffset offset)

structure Diagnostic where
  severity : Severity
  location : Location
  text : String
  deriving Repr, DecidableEq, Inhabited

/-- `location: severity: text`, without the first part when there is no location. -/
def Diagnostic.render (d : Diagnostic) : String :=
  match d.location.render? with
  | some place => s!"{place}: {d.severity.name}: {d.text}"
  | none => s!"{d.severity.name}: {d.text}"

/-- The diagnostics of a job. -/
structure Log where
  /-- The diagnostics, newest first. -/
  newest : List Diagnostic := []
  warningsAreErrors : Bool := false
  deriving Repr, DecidableEq, Inhabited

namespace Log

/-- The diagnostics, oldest first. -/
def entries (log : Log) : List Diagnostic := log.newest.reverse

def push (log : Log) (severity : Severity) (location : Location) (text : String) : Log :=
  { log with newest := ⟨severity, location, text⟩ :: log.newest }

def error (log : Log) (location : Location) (text : String) : Log :=
  log.push .error location text

def warning (log : Log) (location : Location) (text : String) : Log :=
  log.push .warning location text

def message (log : Log) (location : Location) (text : String) : Log :=
  log.push .message location text

/-- Appends the diagnostics of another log; its own view of warnings is dropped. -/
def extend (log : Log) (other : List Diagnostic) : Log :=
  { log with newest := other.reverse ++ log.newest }

/-- Whether a diagnostic of this severity fails the job. -/
def isFailure (log : Log) : Severity → Bool
  | .error => true
  | .warning => log.warningsAreErrors
  | .message => false

/-- How many diagnostics fail the job. -/
def errorCount (log : Log) : Nat := log.newest.countP fun d => log.isFailure d.severity

/-- Whether nothing recorded fails the job. -/
def succeeded (log : Log) : Bool := log.errorCount == 0

/-- One line for each diagnostic. -/
def render (log : Log) : String :=
  log.entries.foldl (fun text d => text ++ d.render ++ "\n") ""

/-! ### What is recorded -/

@[simp]
theorem entries_push (log : Log) (severity : Severity) (location : Location) (text : String) :
    (log.push severity location text).entries = log.entries ++ [⟨severity, location, text⟩] := by
  simp [entries, push]

end Log

end CartScript
