import CartScript.Assembly.Fault

/-!
# Reporting an assembly
-/

namespace CartScript

/-- The log of an assembly under way.  Each undefined symbol is reported once. -/
structure Report where
  log : Log
  /-- The undefined symbols that were reported. -/
  undefined : List String := []
  deriving Repr, DecidableEq, Inhabited

namespace Report

/-- Reports a fault as an error. -/
def fault (r : Report) (position : Position) (f : AssembleFault) : Report :=
  let log := r.log.error (.script position) f.message
  match f with
  | .unresolvedSymbol name _ =>
    if r.undefined.contains name then r else { log, undefined := name :: r.undefined }
  | _ => { r with log }

/-- Reports a fault, if there is one. -/
def outcome {α : Type} (r : Report) (position : Position) : Except AssembleFault α → Report
  | .ok _ => r
  | .error f => r.fault position f

/-- Reports faults one after the other. -/
def faults (r : Report) (complaints : List (Located AssembleFault)) : Report :=
  complaints.foldl (fun r c => r.fault c.position c.value) r

/-- Adds a diagnostic. -/
def push (r : Report) (severity : Severity) (position : Position) (text : String) : Report :=
  { r with log := r.log.push severity (.script position) text }

end Report

end CartScript
