import CartScript.Assembly.Fault
import CartScript.Dictionary
import CartScript.Script.Statement

/-!
# The symbols of an assembly

Labels and constants with their values, and where each name is used first.

A constant may depend on names that get their values later.  `Symbols.settle` gives values to such
constants for as long as that makes others known.
-/

namespace CartScript

structure Symbols where
  values : Dictionary Int64 := {}
  firstUses : Dictionary Position := {}
  deriving Repr, DecidableEq, Inhabited

/-- A constant whose value was not known where it stands. -/
structure WaitingConstant where
  name : String
  value : Expr
  here : UInt32
  position : Position
  deriving Repr, DecidableEq, Inhabited

namespace Symbols

def value? (s : Symbols) (name : String) : Option Int64 := s.values.find? name

/-- The values as expressions find them. -/
def source (s : Symbols) : SymbolSource := s.value?

/-- Gives a name its value, once. -/
def declare (s : Symbols) (name : String) (value : Int64) : Except AssembleFault Symbols :=
  if s.values.contains name then .error (.duplicateSymbol name)
  else .ok { s with values := s.values.put name value }

/-- Notes a use of a name, if it is the first. -/
def noteUse (position : Position) (s : Symbols) (name : String) : Symbols :=
  if s.firstUses.contains name then s
  else { s with firstUses := s.firstUses.put name position }

/-- Notes the names that a statement uses. -/
def noteUses (s : Symbols) (statement : Located Statement) : Symbols :=
  (statement.value.exprs.flatMap Expr.labels).foldl (noteUse statement.position) s

def firstUse? (s : Symbols) (name : String) : Option Position := s.firstUses.find? name

/-- The names that are used and have no value. -/
def unresolved (s : Symbols) : List (String × Position) :=
  s.firstUses.entries.filter fun entry => !s.values.contains entry.1

/-- The fault of an evaluation, with the place where a missing name is used first. -/
def evalFault (s : Symbols) : EvalFault → AssembleFault
  | .unresolved name => .unresolvedSymbol name (s.firstUse? name)
  | fault => .eval fault

/-- The value of an expression, for which all names must be known. -/
def resolve (s : Symbols) (e : Expr) (here : UInt32) : Except AssembleFault Int64 :=
  (e.resolve s.source here).mapError s.evalFault

/-- A fault with the position at which it is reported. -/
abbrev Complaint := Located AssembleFault

/-- The outcome of a round over constants. -/
structure Round where
  symbols : Symbols
  waiting : List WaitingConstant := []
  complaints : List Complaint := []
  deriving Repr, DecidableEq, Inhabited

/-- Gives one constant its value, if it is known by now. -/
def Round.step (r : Round) (c : WaitingConstant) : Round :=
  match c.value.eval r.symbols.source c.here with
  | .ok (.known value) =>
    match r.symbols.declare c.name value with
    | .ok symbols => { r with symbols }
    | .error fault => { r with complaints := r.complaints ++ [⟨c.position, fault⟩] }
  | .ok (.deferred _) => { r with waiting := r.waiting ++ [c] }
  | .error fault => { r with complaints := r.complaints ++ [⟨c.position, .eval fault⟩] }

/-- One round over all constants that wait. -/
def round (s : Symbols) (waiting : List WaitingConstant) (complaints : List Complaint) : Round :=
  waiting.foldl Round.step { symbols := s, complaints }

/-- What is said of a constant that cannot get a value. -/
def complaint? (s : Symbols) (c : WaitingConstant) : Option Complaint :=
  match s.resolve c.value c.here with
  | .ok _ => none
  | .error fault => some ⟨c.position, fault⟩

/-- Repeats rounds for as long as they leave fewer constants waiting. -/
def settleFrom (s : Symbols) (waiting : List WaitingConstant) (complaints : List Complaint) :
    Symbols × List Complaint :=
  let r := s.round waiting complaints
  if r.waiting.length < waiting.length then settleFrom r.symbols r.waiting r.complaints
  else (r.symbols, r.complaints ++ r.waiting.filterMap r.symbols.complaint?)
termination_by waiting.length

/-- Gives values to the constants that wait, and complains about those that cannot get one. -/
def settle (s : Symbols) (waiting : List WaitingConstant) : Symbols × List Complaint :=
  s.settleFrom waiting []

end Symbols

end CartScript
