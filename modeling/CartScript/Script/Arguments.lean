import CartScript.Script.Fault
import CartScript.Script.Statement

/-!
# Arguments against parameters
-/

namespace CartScript.Code

/-- Whether an argument suits a parameter. -/
def checkArg (code : Code) (param : Param) (arg : Arg) : Except ParseFault Unit :=
  match param.kind, arg with
  | .int _ _, .expr _ => .ok ()
  | .pointer _, _ | .struct _ _, _ => .ok ()
  | .text, .text content =>
    if param.length < content.utf8ByteSize then
      .error (.textTooLong code.name param.name param.length)
    else .ok ()
  | .text, .list items =>
    if param.length < items.length then
      .error (.tooManyBytes code.name param.name param.length)
    else .ok ()
  | .array count _ _, .list items =>
    if items.length ≠ count then
      .error (.wrongCount code.name param.name count items.length)
    else .ok ()
  | kind, _ => .error (.argKind code.name param.name kind)

/-- Whether the arguments suit the parameters, one by one. -/
def checkArgs (code : Code) (args : List Arg) : Except ParseFault Unit :=
  if args.length ≠ code.params.length then
    .error (.codeArity code.name code.params.length args.length)
  else (code.params.zip args).forM fun (param, arg) => checkArg code param arg

end CartScript.Code
