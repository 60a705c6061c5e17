import CartScript.Code
import CartScript.Expr.Builder
import CartScript.Files.Tree
import CartScript.Token.Lexer

/-!
# What can be wrong with a script
-/

namespace CartScript

inductive ParseFault where
  | lex (fault : LexFault)
  | build (fault : BuildFault)
  | expectedName (what : String)
  | expectedLineEnd (found : Token)
  | expectedListEnd (closing : Symbol) (found : Token)
  | expectedText (keyword : String)
  | unexpected (token : Token)
  | unclosedArguments
  | unclosedBlock
  | strayElse
  | strayEndIf
  | emptyList
  | includeCycle (name : String)
  | fileNotFound (name : String)
  | unreadable (path : Path) (fault : FileFault)
  | unknownCode (name : String)
  | otherGame (name game : String)
  | codeArity (name : String) (expected found : Nat)
  | macroArity (name : String) (expected found : Nat)
  | argKind (code param : String) (kind : FieldKind)
  | textTooLong (code param : String) (limit : Nat)
  | tooManyBytes (code param : String) (limit : Nat)
  | wrongCount (code param : String) (expected found : Nat)
  /-- The script was given up after too many steps. -/
  | endless
  deriving Repr, DecidableEq

def ParseFault.message : ParseFault → String
  | .lex fault => fault.message
  | .build fault => fault.message
  | .expectedName what => s!"expected {what}"
  | .expectedLineEnd found => s!"expected end of line, found {found.describe}"
  | .expectedListEnd closing found =>
    s!"expected `,` or `{closing.spelling}`, found {found.describe}"
  | .expectedText keyword => s!"{keyword} expects a string"
  | .unexpected token => s!"unexpected {token.describe}"
  | .unclosedArguments => "unterminated macro arguments"
  | .unclosedBlock => "unterminated conditional block"
  | .strayElse => "#else without #ifdef"
  | .strayEndIf => "#endif without #ifdef"
  | .emptyList => "empty list"
  | .includeCycle name => s!"include cycle through \"{name}\""
  | .fileNotFound name => s!"file not found: \"{name}\""
  | .unreadable path fault => s!"{path}: {fault.message}"
  | .unknownCode name => s!"unknown code \"{name}\""
  | .otherGame name game => s!"code \"{name}\" is not available for {game}"
  | .codeArity name expected found =>
    s!"code \"{name}\" takes {expected} argument(s), found {found}"
  | .macroArity name expected found =>
    s!"macro \"{name}\" takes {expected} argument(s), found {found}"
  | .argKind code param kind =>
    s!"code \"{code}\" parameter \"{param}\": expected {kind.describe}"
  | .textTooLong code param limit =>
    s!"code \"{code}\" parameter \"{param}\": string is longer than {limit} bytes"
  | .tooManyBytes code param limit =>
    s!"code \"{code}\" parameter \"{param}\": more than {limit} bytes"
  | .wrongCount code param expected found =>
    s!"code \"{code}\" parameter \"{param}\": expected {expected} values, found {found}"
  | .endless => "script does not end"

end CartScript
