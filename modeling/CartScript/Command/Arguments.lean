import CartScript.Text.Blank

/-!
# Arguments of a command

A command has options, which take a value each, and positional arguments.  A value follows its option
as the next argument, after an equals sign, or directly after the letter of the option.  After `--`
all arguments are positional.
-/

namespace CartScript.Command

/-- An option of a command. -/
structure OptionSpec where
  letter : Option Char := none
  name : String
  /-- Whether it may be given more than once. -/
  repeats : Bool := false
  deriving Repr, DecidableEq, Inhabited

/-- What is wrong with the arguments of a command. -/
inductive UsageFault where
  | unknownOption (text : String)
  | missingValue (name : String)
  | givenTwice (name : String)
  | missingArgument (name : String)
  | tooManyArguments (text : String)
  | invalidValue (name text : String)
  deriving Repr, DecidableEq, Inhabited

def UsageFault.message : UsageFault → String
  | .unknownOption text => s!"unexpected argument '{text}'"
  | .missingValue name => s!"a value is required for '{name}'"
  | .givenTwice name => s!"'{name}' cannot be used multiple times"
  | .missingArgument name => s!"'{name}' was not provided"
  | .tooManyArguments text => s!"unexpected argument '{text}'"
  | .invalidValue name text => s!"invalid value '{text}' for '{name}'"

/-- The arguments of a command, sorted out. -/
structure Arguments where
  positional : List String := []
  /-- The values of options by their names, in order. -/
  options : List (String × String) := []
  deriving Repr, DecidableEq, Inhabited

/-- An option as written: which one it is, and the value if it is part of the same argument. -/
structure OptionUse where
  spec : OptionSpec
  value : Option String
  deriving Repr, DecidableEq

/-- What an argument is. -/
inductive ArgumentKind where
  | positional
  /-- Ends the options. -/
  | divider
  | option (use : OptionUse)
  | unknown
  deriving Repr, DecidableEq

/-- Tells what an argument is.  A single dash is a positional argument. -/
def classify (specs : List OptionSpec) (arg : String) : ArgumentKind :=
  match arg.toList with
  | ['-', '-'] => .divider
  | '-' :: '-' :: rest =>
    let (name, value) := match Text.cut? '=' rest with
      | some (name, value) => (name, some (String.ofList value))
      | none => (rest, none)
    match specs.find? (·.name == String.ofList name) with
    | some spec => .option ⟨spec, value⟩
    | none => .unknown
  | '-' :: letter :: rest =>
    match specs.find? (·.letter == some letter) with
    | none => .unknown
    | some spec =>
      match rest with
      | [] => .option ⟨spec, none⟩
      | '=' :: value => .option ⟨spec, some (String.ofList value)⟩
      | value => .option ⟨spec, some (String.ofList value)⟩
  | _ => .positional

namespace Arguments

/-- Adds the value of an option. -/
def addOption (a : Arguments) (spec : OptionSpec) (value : String) : Except UsageFault Arguments :=
  if !spec.repeats && (a.options.lookup spec.name).isSome then .error (.givenTwice spec.name)
  else .ok { a with options := a.options ++ [(spec.name, value)] }

/-- Sorts out arguments. -/
def sort (specs : List OptionSpec) : List String → Arguments → Except UsageFault Arguments
  | [], a => .ok a
  | arg :: rest, a =>
    match classify specs arg with
    | .positional => sort specs rest { a with positional := a.positional ++ [arg] }
    | .divider => .ok { a with positional := a.positional ++ rest }
    | .unknown => .error (.unknownOption arg)
    | .option ⟨spec, some value⟩ => do sort specs rest (← a.addOption spec value)
    | .option ⟨spec, none⟩ =>
      match rest with
      | [] => .error (.missingValue spec.name)
      | value :: rest =>
        match classify specs value with
        | .positional => do sort specs rest (← a.addOption spec value)
        | _ => .error (.missingValue spec.name)

/-- The value of an option. -/
def value? (a : Arguments) (name : String) : Option String := a.options.lookup name

/-- The values of an option that repeats. -/
def values (a : Arguments) (name : String) : List String :=
  a.options.filterMap fun option => if option.1 = name then some option.2 else none

/-- A path must not be empty. -/
def path (name text : String) : Except UsageFault String :=
  if text = "" then .error (.missingValue name) else .ok text

/-- The path that an option gives. -/
def path? (a : Arguments) (name : String) : Except UsageFault (Option String) :=
  match a.value? name with
  | none => .ok none
  | some text => (path name text).map some

/-- The value of an option that is read in some way. -/
def read {α : Type} (a : Arguments) (name : String) (reading : String → Option α) (fallback : α) :
    Except UsageFault α :=
  match a.value? name with
  | none => .ok fallback
  | some text =>
    match reading text with
    | some value => .ok value
    | none => .error (.invalidValue name text)

/-- The two positional arguments of a command. -/
def pair (a : Arguments) (first second : String) : Except UsageFault (String × String) :=
  match a.positional with
  | [x, y] => .ok (x, y)
  | [] => .error (.missingArgument first)
  | [_] => .error (.missingArgument second)
  | _ :: _ :: extra :: _ => .error (.tooManyArguments extra)

end Arguments

end CartScript.Command
