import CartScript.Text.Ascii

/-!
# Tokens of a script
-/

namespace CartScript

/-- The words after `#`. -/
inductive Directive where
  | includeScript
  | includeBytes
  | define
  | undefine
  | ifDefined
  | ifUndefined
  | otherwise
  | endIf
  deriving Repr, DecidableEq, Inhabited

namespace Directive

/-- The directives with their words. -/
def words : List (String × Directive) :=
  [("include", .includeScript), ("incbin", .includeBytes), ("define", .define),
    ("undef", .undefine), ("ifdef", .ifDefined), ("ifndef", .ifUndefined), ("else", .otherwise),
    ("endif", .endIf)]

/-- The directive of a lower-case word. -/
def ofWord? (word : String) : Option Directive := words.lookup word

def word : Directive → String
  | .includeScript => "include"
  | .includeBytes => "incbin"
  | .define => "define"
  | .undefine => "undef"
  | .ifDefined => "ifdef"
  | .ifUndefined => "ifndef"
  | .otherwise => "else"
  | .endIf => "endif"

end Directive

/-- Operators, brackets and separators.  A mark that has no meaning in a script is `other`. -/
inductive Symbol where
  | plus | minus | times | divide | modulo
  | shiftLeft | shiftRight
  | less | lessEqual | greater | greaterEqual | equal | notEqual
  | bitAnd | bitXor | bitOr | bitNot
  | logicalAnd | logicalOr | logicalNot
  | openParen | closeParen | openBracket | closeBracket
  | comma | colon | assign
  | other (byte : UInt8)
  deriving Repr, DecidableEq, Inhabited

namespace Symbol

/-- The symbols written with two bytes. -/
def pairs : List ((UInt8 × UInt8) × Symbol) :=
  [((0x3C, 0x3C), .shiftLeft), ((0x3E, 0x3E), .shiftRight), ((0x3C, 0x3D), .lessEqual),
    ((0x3E, 0x3D), .greaterEqual), ((0x3D, 0x3D), .equal), ((0x21, 0x3D), .notEqual),
    ((0x26, 0x26), .logicalAnd), ((0x7C, 0x7C), .logicalOr)]

/-- The symbols written with one byte, those without a meaning left out. -/
def singles : List (UInt8 × Symbol) :=
  [(0x2B, .plus), (0x2D, .minus), (0x2A, .times), (0x2F, .divide), (0x25, .modulo),
    (0x3C, .less), (0x3E, .greater), (0x26, .bitAnd), (0x5E, .bitXor), (0x7C, .bitOr),
    (0x7E, .bitNot), (0x21, .logicalNot), (0x28, .openParen), (0x29, .closeParen),
    (0x5B, .openBracket), (0x5D, .closeBracket), (0x2C, .comma), (0x3A, .colon), (0x3D, .assign)]

/-- The symbol written with two bytes. -/
def ofPair? (first second : UInt8) : Option Symbol := pairs.lookup (first, second)

/-- The symbol written with one byte. -/
def ofByte (b : UInt8) : Symbol := (singles.lookup b).getD (.other b)

/-- How a symbol is written. -/
def spelling : Symbol → String
  | .plus => "+"
  | .minus => "-"
  | .times => "*"
  | .divide => "/"
  | .modulo => "%"
  | .shiftLeft => "<<"
  | .shiftRight => ">>"
  | .less => "<"
  | .lessEqual => "<="
  | .greater => ">"
  | .greaterEqual => ">="
  | .equal => "=="
  | .notEqual => "!="
  | .bitAnd => "&"
  | .bitXor => "^"
  | .bitOr => "|"
  | .bitNot => "~"
  | .logicalAnd => "&&"
  | .logicalOr => "||"
  | .logicalNot => "!"
  | .openParen => "("
  | .closeParen => ")"
  | .openBracket => "["
  | .closeBracket => "]"
  | .comma => ","
  | .colon => ":"
  | .assign => "="
  | .other b => Ascii.toText [b]

/-- Whether the symbol is written with two bytes. -/
def isPair : Symbol → Bool
  | .shiftLeft | .shiftRight | .lessEqual | .greaterEqual | .equal | .notEqual | .logicalAnd
  | .logicalOr => true
  | _ => false

end Symbol

inductive Token where
  | lineEnd
  | fileEnd
  | name (text : String)
  | number (value : Int64)
  | text (text : String)
  | directive (directive : Directive)
  | symbol (symbol : Symbol)
  deriving Repr, DecidableEq, Inhabited

namespace Token

/-- The token as messages name it. -/
def describe : Token → String
  | .lineEnd => "end of line"
  | .fileEnd => "end of file"
  | .name _ => "identifier"
  | .number _ => "number"
  | .text _ => "string"
  | .directive d => "#" ++ d.word
  | .symbol s => if s.isPair then s.spelling else s!"`{s.spelling}`"

end Token

end CartScript
