import Lox.Diagnostic

/-!
What can go wrong in a running program, and the token at which it does.
-/

namespace Lox

inductive RuntimeError.Cause where
  | operandNotNumber
  | operandsNotNumbers
  | operandsNotAddable
  | notCallable
  | arity (expected given : Nat)
  | noProperties
  | noFields
  | undefinedProperty (name : Bytes)
  | superclassNotClass
  | unexpectedOperator (operator : Bytes)
  | stackOverflow
  | undefinedVariable (name : Bytes)
  deriving DecidableEq, Repr

def RuntimeError.Cause.message : RuntimeError.Cause → Bytes
  | .operandNotNumber => bytes "Operand must be a number."
  | .operandsNotNumbers => bytes "Operands must be numbers."
  | .operandsNotAddable => bytes "Operands must be two numbers or two strings."
  | .notCallable => bytes "Can only call functions and classes."
  | .arity expected given =>
      bytes "Expected " ++ Bytes.ofNat expected ++ bytes " arguments but got " ++
        Bytes.ofNat given ++ bytes "."
  | .noProperties => bytes "Only instances have properties."
  | .noFields => bytes "Only instances have fields."
  | .undefinedProperty name => bytes "Undefined property '" ++ name ++ bytes "'."
  | .superclassNotClass => bytes "Superclass must be a class."
  | .unexpectedOperator operator => bytes "Unexpected operator '" ++ operator ++ bytes "'."
  | .stackOverflow => bytes "Stack overflow."
  | .undefinedVariable name => bytes "Undefined variable '" ++ name ++ bytes "'."

structure RuntimeError where
  token : Token
  cause : RuntimeError.Cause
  deriving DecidableEq, Repr

def RuntimeError.diagnostic (e : RuntimeError) : Diagnostic :=
  .atToken .runtime e.token e.cause.message

/-- The error on its own, without the place in the line. -/
def RuntimeError.text (e : RuntimeError) : Bytes :=
  bytes "line " ++ Bytes.ofInt e.token.line ++ bytes ": " ++ e.cause.message

/-- A name that no scope binds. -/
def RuntimeError.undefined (name : Token) : RuntimeError :=
  ⟨name, .undefinedVariable name.lexeme⟩

end Lox
