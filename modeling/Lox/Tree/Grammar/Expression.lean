import Lox.Tree.Parser

/-!
The grammar of expressions. Each level is a parser built from the parser of nested expressions; the
recursion is closed by counting nesting levels, of which a list of tokens has no more than tokens.
-/

namespace Lox

namespace Parser

abbrev Expression := Parser (Expr Unit)

def superMethod (keyword : Token) : Expression := do
  let _ ← expect .dot .superDot
  let method ← expect .identifier .superMethod
  return .super keyword () method

def group (expression : Expression) : Expression := do
  let inner ← expression
  let _ ← expect .rightParen .groupEnd
  return .group inner

def primary (expression : Expression) : Expression
  | [] => fail .expression []
  | t :: ts =>
      match t.kind with
      | .falseWord => .ok (.literal (.bool false)) ts []
      | .trueWord => .ok (.literal (.bool true)) ts []
      | .nilWord => .ok (.literal .nil) ts []
      | .number | .string => .ok (.literal t.literal) ts []
      | .superWord => superMethod t ts
      | .thisWord => .ok (.this t ()) ts []
      | .identifier => .ok (.read t ()) ts []
      | .leftParen => group expression ts
      | _ => fail .expression (t :: ts)

/-- Calls and property accesses behind an expression. -/
def suffixes (expression : Expression) : Nat → Expr Unit → Expression
  | 0, e => pure e
  | n + 1, e => do
      match ← accept? [.leftParen, .dot] with
      | none => return e
      | some t =>
          if t.kind = .dot then
            let name ← expect .identifier .propertyName
            suffixes expression n (.get e name)
          else
            let (arguments, paren) ← parenthesized expression .tooManyArguments .argumentsEnd
            suffixes expression n (.call e paren arguments)

def call (expression : Expression) : Expression := do
  let e ← primary expression
  bounded fun n => suffixes expression n e

def isUnary (t : Token) : Bool :=
  t.kind = .bang || t.kind = .minus

def unary (expression : Expression) : Expression :=
  fun ts =>
    (do
      let e ← call expression
      return (ts.takeWhile isUnary).foldr Expr.unary e : Expression) (ts.dropWhile isUnary)

/-- Operands behind `left`, taken from left to right. -/
def operands (node : Expr Unit → Token → Expr Unit → Expr Unit) (operators : List Token.Kind)
    (operand : Expression) : Nat → Expr Unit → Expression
  | 0, left => pure left
  | n + 1, left => do
      match ← accept? operators with
      | none => return left
      | some operator =>
          let right ← operand
          operands node operators operand n (node left operator right)

def leftAssociative (node : Expr Unit → Token → Expr Unit → Expr Unit)
    (operators : List Token.Kind) (operand : Expression) : Expression := do
  let left ← operand
  bounded fun n => operands node operators operand n left

def factor (expression : Expression) : Expression :=
  leftAssociative .binary [.slash, .star] (unary expression)

def term (expression : Expression) : Expression :=
  leftAssociative .binary [.minus, .plus] (factor expression)

def comparison (expression : Expression) : Expression :=
  leftAssociative .binary [.greater, .greaterEqual, .less, .lessEqual] (term expression)

def equality (expression : Expression) : Expression :=
  leftAssociative .binary [.bangEqual, .equalEqual] (comparison expression)

def conjunction (expression : Expression) : Expression :=
  leftAssociative .logical [.andWord] (equality expression)

def disjunction (expression : Expression) : Expression :=
  leftAssociative .logical [.orWord] (conjunction expression)

/-- What an assignment to `target` means; other targets cannot be assigned to. -/
def assignTo? (target value : Expr Unit) : Option (Expr Unit) :=
  match target with
  | .read name _ => some (.assign name () value)
  | .get object name => some (.set object name value)
  | _ => none

def assignment (expression : Expression) : Expression := do
  let target ← disjunction expression
  let left ← here
  match ← accept? [.equal] with
  | none => return target
  | some _ =>
      let value ← expression
      match assignTo? target value with
      | some e => return e
      | none =>
          report left .assignmentTarget
          return target

def expressionIn : Nat → Expression
  | 0 => fail .expression
  | n + 1 => assignment (expressionIn n)

def expression : Expression :=
  fun ts => expressionIn (ts.length + 1) ts

end Parser

end Lox
