import Lox.Tree

/-!
The places of a tree that name a variable, from left to right and outer before inner ones.
-/

namespace Lox

inductive Use.Tag where
  | variable
  | assign
  | this
  | super
  deriving DecidableEq, Repr

structure Use (ρ : Type) where
  tag : Use.Tag
  token : Token
  site : ρ
  deriving DecidableEq, Repr

def Use.Tag.name : Use.Tag → String
  | .variable => "variable"
  | .assign => "assign"
  | .this => "this"
  | .super => "super"

mutual

def Expr.uses {ρ : Type} : Expr ρ → List (Use ρ)
  | .assign name site value => ⟨.assign, name, site⟩ :: value.uses
  | .binary left _ right => left.uses ++ right.uses
  | .call callee _ arguments => callee.uses ++ Expr.usesAll arguments
  | .get object _ => object.uses
  | .group inner => inner.uses
  | .literal _ => []
  | .logical left _ right => left.uses ++ right.uses
  | .set object _ value => object.uses ++ value.uses
  | .super keyword site _ => [⟨.super, keyword, site⟩]
  | .this keyword site => [⟨.this, keyword, site⟩]
  | .unary _ operand => operand.uses
  | .read name site => [⟨.variable, name, site⟩]

def Expr.usesAll {ρ : Type} : List (Expr ρ) → List (Use ρ)
  | [] => []
  | e :: es => e.uses ++ Expr.usesAll es

end

def Expr.usesOf {ρ : Type} : Option (Expr ρ) → List (Use ρ)
  | none => []
  | some e => e.uses

def Use.ofSuperclass {ρ : Type} : Option (Token × ρ) → List (Use ρ)
  | none => []
  | some (name, site) => [⟨.variable, name, site⟩]

mutual

def Stmt.uses {ρ : Type} : Stmt ρ → List (Use ρ)
  | .block body => Stmt.usesAll body
  | .class _ superclass methods => Use.ofSuperclass superclass ++ FunctionDecl.usesAll methods
  | .expr e => e.uses
  | .function decl => decl.uses
  | .ifThen condition thenBranch => condition.uses ++ thenBranch.uses
  | .ifElse condition thenBranch elseBranch =>
      condition.uses ++ thenBranch.uses ++ elseBranch.uses
  | .print e => e.uses
  | .return _ value => Expr.usesOf value
  | .var _ init => Expr.usesOf init
  | .while condition body => condition.uses ++ body.uses

def Stmt.usesAll {ρ : Type} : List (Stmt ρ) → List (Use ρ)
  | [] => []
  | s :: ss => s.uses ++ Stmt.usesAll ss

def FunctionDecl.uses {ρ : Type} : FunctionDecl ρ → List (Use ρ)
  | ⟨_, _, body⟩ => Stmt.usesAll body

def FunctionDecl.usesAll {ρ : Type} : List (FunctionDecl ρ) → List (Use ρ)
  | [] => []
  | d :: ds => d.uses ++ FunctionDecl.usesAll ds

end

/-- How many uses of a resolved program are bound to a local scope. -/
def localUses (program : List (Stmt Site)) : Nat :=
  (Stmt.usesAll program).countP (·.site.isSome)

end Lox
