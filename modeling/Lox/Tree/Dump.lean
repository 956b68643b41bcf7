import Lox.Tree

/-!
Dumped trees: every node in parentheses with its name first, one statement a line.
-/

namespace Lox

namespace Dump

/-- A node: its head and its parts, each after a space. -/
def node (head : Bytes) (parts : List Bytes) : Bytes :=
  40 :: head ++ parts.flatMap (Bytes.space :: ·) ++ [41]

end Dump

open Dump

mutual

def Expr.dump {ρ : Type} : Expr ρ → Bytes
  | .assign name _ value => node (bytes "= " ++ name.lexeme) [value.dump]
  | .binary left operator right => node operator.lexeme [left.dump, right.dump]
  | .call callee _ arguments => node (bytes "call") (callee.dump :: Expr.dumps arguments)
  | .get object name => node (bytes "." ++ name.lexeme) [object.dump]
  | .group inner => node (bytes "group") [inner.dump]
  | .literal value => value.dump
  | .logical left operator right => node operator.lexeme [left.dump, right.dump]
  | .set object name value => node (bytes "=" ++ name.lexeme) [object.dump, value.dump]
  | .super _ _ method => node (bytes "super " ++ method.lexeme) []
  | .this _ _ => bytes "this"
  | .unary operator operand => node operator.lexeme [operand.dump]
  | .read name _ => name.lexeme

def Expr.dumps {ρ : Type} : List (Expr ρ) → List Bytes
  | [] => []
  | e :: es => e.dump :: Expr.dumps es

end

namespace Dump

def optional {ρ : Type} : Option (Expr ρ) → List Bytes
  | none => []
  | some e => [e.dump]

def superclass {ρ : Type} : Option (Token × ρ) → Bytes
  | none => []
  | some (name, _) => bytes " < " ++ name.lexeme

def params (names : List Token) : Bytes :=
  40 :: Bytes.joined [Bytes.space] (names.map Token.lexeme) ++ [41]

end Dump

mutual

def Stmt.dump {ρ : Type} : Stmt ρ → Bytes
  | .block body => node (bytes "block") (Stmt.dumps body)
  | .class name base methods =>
      node (bytes "class " ++ name.lexeme ++ superclass base) (FunctionDecl.dumps methods)
  | .expr e => node (bytes ";") [e.dump]
  | .function decl => decl.dump
  | .ifThen condition thenBranch => node (bytes "if") [condition.dump, thenBranch.dump]
  | .ifElse condition thenBranch elseBranch =>
      node (bytes "if-else") [condition.dump, thenBranch.dump, elseBranch.dump]
  | .print e => node (bytes "print") [e.dump]
  | .return _ value => node (bytes "return") (optional value)
  | .var name init => node (bytes "var " ++ name.lexeme) (optional init)
  | .while condition body => node (bytes "while") [condition.dump, body.dump]

def Stmt.dumps {ρ : Type} : List (Stmt ρ) → List Bytes
  | [] => []
  | s :: ss => s.dump :: Stmt.dumps ss

def FunctionDecl.dump {ρ : Type} : FunctionDecl ρ → Bytes
  | ⟨name, names, body⟩ =>
      node (bytes "fun " ++ name.lexeme) (params names :: Stmt.dumps body)

def FunctionDecl.dumps {ρ : Type} : List (FunctionDecl ρ) → List Bytes
  | [] => []
  | d :: ds => d.dump :: FunctionDecl.dumps ds

end

/-- A program with one statement a line. -/
def dump {ρ : Type} (program : List (Stmt ρ)) : Bytes :=
  (Stmt.dumps program).flatMap Bytes.line

end Lox
