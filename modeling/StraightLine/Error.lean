import StraightLine.Token.Basic
set_option autoImplicit false

namespace StraightLine

inductive Cause where
  | literal (fault : Numeral.Fault) (digits : String)
  | unexpected (expected found : Kind) (lexeme : String)
  | operand (found : Kind) (lexeme : String)
  | unbound (name : String)
  deriving DecidableEq

inductive Phase where
  | lexical
  | syntactic
  deriving DecidableEq

def Phase.heading : Phase → String
  | lexical => "Lexical error: "
  | syntactic => "Syntax error: "

namespace Cause

def phase : Cause → Phase
  | literal _ _ => .lexical
  | _ => .syntactic

def isUnbound : Cause → Bool
  | unbound _ => true
  | _ => false

def foundText (found : Kind) (lexeme : String) : String :=
  if lexeme.isEmpty then found.description
  else found.description ++ " `" ++ lexeme ++ "`"

def description : Cause → String
  | literal .leadingZero digits => "integer literal `" ++ digits ++ "` has a leading zero"
  | literal .tooLarge digits => "integer literal `" ++ digits ++ "` is too large"
  | unexpected expected found lexeme =>
    "expected " ++ expected.description ++ ", found " ++ foundText found lexeme
  | operand found lexeme => "expected an operand, found " ++ foundText found lexeme
  | unbound name => "unknown variable `" ++ name ++ "`"

end Cause

/-- Positions count the bytes of the text without its blanks. -/
structure Error where
  position : Nat
  cause : Cause
  deriving DecidableEq

namespace Error

def detail (e : Error) : String :=
  "at offset " ++ toString e.position ++ ": " ++ e.cause.description ++ "."

def message (e : Error) : String :=
  e.cause.phase.heading ++ e.detail

end Error

structure RejectedLiteral where
  position : Nat
  fault : Numeral.Fault
  digits : String
  deriving DecidableEq

def RejectedLiteral.toError (r : RejectedLiteral) : Error :=
  ⟨r.position, .literal r.fault r.digits⟩

end StraightLine
