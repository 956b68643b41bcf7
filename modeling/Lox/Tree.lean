import Lox.Token

/-!
Syntax trees. Every place that names a variable carries an annotation: a parsed tree has none, and a
resolved tree says how many scopes out the variable was declared.
-/

namespace Lox

inductive Expr (ρ : Type) where
  | assign (name : Token) (site : ρ) (value : Expr ρ)
  | binary (left : Expr ρ) (operator : Token) (right : Expr ρ)
  | call (callee : Expr ρ) (paren : Token) (arguments : List (Expr ρ))
  | get (object : Expr ρ) (name : Token)
  | group (inner : Expr ρ)
  | literal (value : Literal)
  | logical (left : Expr ρ) (operator : Token) (right : Expr ρ)
  | set (object : Expr ρ) (name : Token) (value : Expr ρ)
  | super (keyword : Token) (site : ρ) (method : Token)
  | this (keyword : Token) (site : ρ)
  | unary (operator : Token) (operand : Expr ρ)
  | read (name : Token) (site : ρ)

mutual

inductive Stmt (ρ : Type) where
  | block (body : List (Stmt ρ))
  | class (name : Token) (superclass : Option (Token × ρ)) (methods : List (FunctionDecl ρ))
  | expr (e : Expr ρ)
  | function (decl : FunctionDecl ρ)
  | ifThen (condition : Expr ρ) (thenBranch : Stmt ρ)
  | ifElse (condition : Expr ρ) (thenBranch elseBranch : Stmt ρ)
  | print (e : Expr ρ)
  | return (keyword : Token) (value : Option (Expr ρ))
  | var (name : Token) (init : Option (Expr ρ))
  | while (condition : Expr ρ) (body : Stmt ρ)

/-- A function or method with its parameters and body. -/
structure FunctionDecl (ρ : Type) where
  name : Token
  params : List Token
  body : List (Stmt ρ)

end

/-- The name of the receiver in the scope around a method. -/
def thisName : Bytes := bytes "this"

/-- The name of the superclass in the scope around the methods of a derived class. -/
def superName : Bytes := bytes "super"

/-- The name of the method that a class runs on its new instances. -/
def initName : Bytes := bytes "init"

/-- How many scopes out a name was declared; a name of no enclosing scope is a global. -/
abbrev Site := Option Nat

end Lox
