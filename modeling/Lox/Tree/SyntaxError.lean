import Lox.Diagnostic

/-!
What the grammar can find missing or too much, and the token at which it does.
-/

namespace Lox

/-- What a declaration with parameters declares. -/
inductive FunctionRole where
  | function
  | method
  deriving DecidableEq, Repr

def FunctionRole.name : FunctionRole → String
  | .function => "function"
  | .method => "method"

inductive SyntaxError.Cause where
  | className
  | superclassName
  | classBody
  | classEnd
  | functionName (role : FunctionRole)
  | functionParams (role : FunctionRole)
  | functionBody (role : FunctionRole)
  | parameterName
  | paramsEnd
  | tooManyParams
  | variableName
  | variableEnd
  | forParen
  | loopConditionEnd
  | forClausesEnd
  | ifParen
  | ifConditionEnd
  | valueEnd
  | returnEnd
  | whileParen
  | whileConditionEnd
  | blockEnd
  | expressionEnd
  | assignmentTarget
  | propertyName
  | argumentsEnd
  | tooManyArguments
  | superDot
  | superMethod
  | groupEnd
  | expression
  deriving DecidableEq, Repr

namespace SyntaxError

def Cause.message : Cause → Bytes
  | .className => bytes "Expect class name."
  | .superclassName => bytes "Expect superclass name."
  | .classBody => bytes "Expect '\x7b' before class body."
  | .classEnd => bytes "Expect '\x7d' after class body."
  | .functionName role => bytes "Expect " ++ bytes role.name ++ bytes " name."
  | .functionParams role => bytes "Expect '(' after " ++ bytes role.name ++ bytes " name."
  | .functionBody role => bytes "Expect '\x7b' before " ++ bytes role.name ++ bytes " body."
  | .parameterName => bytes "Expect parameter name."
  | .paramsEnd => bytes "Expect ')' after parameters."
  | .tooManyParams => bytes "Can't have more than 255 parameters."
  | .variableName => bytes "Expect variable name."
  | .variableEnd => bytes "Expect ';' after variable declaration."
  | .forParen => bytes "Expect '(' after 'for'."
  | .loopConditionEnd => bytes "Expect ';' after loop condition."
  | .forClausesEnd => bytes "Expect ')' after for clauses."
  | .ifParen => bytes "Expect '(' after 'if'."
  | .ifConditionEnd => bytes "Expect ')' after if condition."
  | .valueEnd => bytes "Expect ';' after value."
  | .returnEnd => bytes "Expect ';' after return value."
  | .whileParen => bytes "Expect '(' after 'while'."
  | .whileConditionEnd => bytes "Expect ')' after condition."
  | .blockEnd => bytes "Expect '\x7d' after block."
  | .expressionEnd => bytes "Expect ';' after expression."
  | .assignmentTarget => bytes "Invalid assignment target."
  | .propertyName => bytes "Expect property name after '.'."
  | .argumentsEnd => bytes "Expect ')' after arguments."
  | .tooManyArguments => bytes "Can't have more than 255 arguments."
  | .superDot => bytes "Expect '.' after 'super'."
  | .superMethod => bytes "Expect superclass method name."
  | .groupEnd => bytes "Expect ')' after expression."
  | .expression => bytes "Expect expression."

/-- Whether the statement around a fault is given up. -/
def Cause.isFatal : Cause → Bool
  | .tooManyParams | .tooManyArguments | .assignmentTarget => false
  | _ => true

end SyntaxError

/-- A fault, and the tokens from the one at fault on. There are none if the input ends too early. -/
structure SyntaxError where
  left : List Token
  cause : SyntaxError.Cause
  deriving DecidableEq, Repr

namespace SyntaxError

/-- The token at fault; the end of input stands on `endLine`. -/
def token (endLine : Int) (e : SyntaxError) : Token :=
  e.left.head?.getD (.atEnd endLine)

def diagnostic (endLine : Int) (e : SyntaxError) : Diagnostic :=
  .atToken .syntactic (e.token endLine) e.cause.message

end SyntaxError

end Lox
