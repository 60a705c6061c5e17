import CartScript.Expr
import CartScript.Log

/-!
# Statements

A program is what a script says once its includes, macros and conditionals are worked off: a list
of statements, each with its position.
-/

namespace CartScript

/-- An argument of a code. -/
inductive Arg where
  | expr (value : Expr)
  | list (items : List Expr)
  | text (content : String)
  deriving Repr, DecidableEq, Inhabited

inductive Statement where
  /-- Names the current offset. -/
  | label (name : String)
  /-- Names a value. -/
  | constant (name : String) (value : Expr)
  /-- Writes the code at a place of the registry. -/
  | code (index : Nat) (args : List Arg)
  /-- Writes values of a width. -/
  | data (width : Nat) (values : List Expr)
  /-- Writes addresses. -/
  | pointers (values : List Expr)
  /-- Goes on at an offset. -/
  | org (target : Expr)
  /-- Remembers the current offset. -/
  | push
  /-- Goes back to the offset remembered last. -/
  | pop
  /-- Goes on at the next multiple. -/
  | align (multiple : Expr)
  /-- Writes a byte a number of times. -/
  | fill (count value : Expr)
  /-- Forbids writing to bytes from `start` to `stop`; without a stop, to four bytes. -/
  | protect (start : Expr) (stop : Option Expr)
  | assertion (condition : Expr)
  | report (severity : Severity) (text : String)
  /-- Writes the bytes of a file. -/
  | bytes (content : Array UInt8)
  deriving Repr, DecidableEq, Inhabited

namespace Arg

/-- The expressions of an argument, in order. -/
def exprs : Arg → List Expr
  | .expr value => [value]
  | .list items => items
  | .text _ => []

end Arg

namespace Statement

/-- The expressions of a statement, in order. -/
def exprs : Statement → List Expr
  | .constant _ e | .org e | .align e | .assertion e => [e]
  | .code _ args => args.flatMap Arg.exprs
  | .data _ values | .pointers values => values
  | .fill count value => [count, value]
  | .protect start stop => start :: stop.toList
  | .label _ | .push | .pop | .report _ _ | .bytes _ => []

end Statement

/-- The statements of a script in order. -/
abbrev Program := List (Located Statement)

end CartScript
