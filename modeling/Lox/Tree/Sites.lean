import Lox.Tree

/-!
Trees with other annotations.
-/

namespace Lox

mutual

/-- The same expression with every annotation changed by `f`. -/
def Expr.mapSites {ρ τ : Type} (f : ρ → τ) : Expr ρ → Expr τ
  | .assign name site value => .assign name (f site) (value.mapSites f)
  | .binary left operator right => .binary (left.mapSites f) operator (right.mapSites f)
  | .call callee paren arguments =>
      .call (callee.mapSites f) paren (Expr.mapSitesAll f arguments)
  | .get object name => .get (object.mapSites f) name
  | .group inner => .group (inner.mapSites f)
  | .literal value => .literal value
  | .logical left operator right => .logical (left.mapSites f) operator (right.mapSites f)
  | .set object name value => .set (object.mapSites f) name (value.mapSites f)
  | .super keyword site method => .super keyword (f site) method
  | .this keyword site => .this keyword (f site)
  | .unary operator operand => .unary operator (operand.mapSites f)
  | .read name site => .read name (f site)

def Expr.mapSitesAll {ρ τ : Type} (f : ρ → τ) : List (Expr ρ) → List (Expr τ)
  | [] => []
  | e :: es => e.mapSites f :: Expr.mapSitesAll f es

end

mutual

def Stmt.mapSites {ρ τ : Type} (f : ρ → τ) : Stmt ρ → Stmt τ
  | .block body => .block (Stmt.mapSitesAll f body)
  | .class name superclass methods =>
      .class name (superclass.map fun base => (base.1, f base.2))
        (FunctionDecl.mapSitesAll f methods)
  | .expr e => .expr (e.mapSites f)
  | .function decl => .function (decl.mapSites f)
  | .ifThen condition thenBranch => .ifThen (condition.mapSites f) (thenBranch.mapSites f)
  | .ifElse condition thenBranch elseBranch =>
      .ifElse (condition.mapSites f) (thenBranch.mapSites f) (elseBranch.mapSites f)
  | .print e => .print (e.mapSites f)
  | .return keyword value => .return keyword (value.map (Expr.mapSites f))
  | .var name init => .var name (init.map (Expr.mapSites f))
  | .while condition body => .while (condition.mapSites f) (body.mapSites f)

def Stmt.mapSitesAll {ρ τ : Type} (f : ρ → τ) : List (Stmt ρ) → List (Stmt τ)
  | [] => []
  | s :: ss => s.mapSites f :: Stmt.mapSitesAll f ss

def FunctionDecl.mapSites {ρ τ : Type} (f : ρ → τ) : FunctionDecl ρ → FunctionDecl τ
  | ⟨name, params, body⟩ => ⟨name, params, Stmt.mapSitesAll f body⟩

def FunctionDecl.mapSitesAll {ρ τ : Type} (f : ρ → τ) :
    List (FunctionDecl ρ) → List (FunctionDecl τ)
  | [] => []
  | d :: ds => d.mapSites f :: FunctionDecl.mapSitesAll f ds

end

/-- A program in which every name is taken for a global. -/
def unbound {ρ : Type} (program : List (Stmt ρ)) : List (Stmt Site) :=
  Stmt.mapSitesAll (fun _ => none) program

end Lox
