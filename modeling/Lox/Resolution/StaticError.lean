import Lox.Diagnostic

/-!
Rules that a well-formed program may still break, and the token at which it does.
-/

namespace Lox

inductive StaticError.Cause where
  | returnOutsideFunction
  | returnFromInitializer
  | thisOutsideClass
  | superOutsideClass
  | superWithoutSuperclass
  | inheritsFromItself
  | redeclared
  | readInOwnInitializer
  deriving DecidableEq, Repr

def StaticError.Cause.message : StaticError.Cause → Bytes
  | .returnOutsideFunction => bytes "Can't return from top-level code."
  | .returnFromInitializer => bytes "Can't return a value from an initializer."
  | .thisOutsideClass => bytes "Can't use 'this' outside of a class."
  | .superOutsideClass => bytes "Can't use 'super' outside of a class."
  | .superWithoutSuperclass => bytes "Can't use 'super' in a class with no superclass."
  | .inheritsFromItself => bytes "A class can't inherit from itself."
  | .redeclared => bytes "Already a variable with this name in this scope."
  | .readInOwnInitializer => bytes "Can't read local variable in its own initializer."

/-- A rule broken at a token. -/
structure StaticError where
  token : Token
  cause : StaticError.Cause
  deriving DecidableEq, Repr

def StaticError.diagnostic (e : StaticError) : Diagnostic :=
  .atToken .static e.token e.cause.message

end Lox
