import Lox.Resolution.Context

/-!
Every use of a name is bound to the innermost enclosing scope that declares the name at that point of
the program.
-/

namespace Lox

open Resolution

mutual

def Expr.resolve (ctx : Context) : Expr Unit → Expr Site
  | .assign name _ value => .assign name (ctx.locate name.lexeme) (value.resolve ctx)
  | .binary left operator right => .binary (left.resolve ctx) operator (right.resolve ctx)
  | .call callee paren arguments =>
      .call (callee.resolve ctx) paren (Expr.resolveAll ctx arguments)
  | .get object name => .get (object.resolve ctx) name
  | .group inner => .group (inner.resolve ctx)
  | .literal value => .literal value
  | .logical left operator right => .logical (left.resolve ctx) operator (right.resolve ctx)
  | .set object name value => .set (object.resolve ctx) name (value.resolve ctx)
  | .super keyword _ method => .super keyword (ctx.locate keyword.lexeme) method
  | .this keyword _ => .this keyword (ctx.locateThis keyword)
  | .unary operator operand => .unary operator (operand.resolve ctx)
  | .read name _ => .read name (ctx.locate name.lexeme)

def Expr.resolveAll (ctx : Context) : List (Expr Unit) → List (Expr Site)
  | [] => []
  | e :: es => e.resolve ctx :: Expr.resolveAll ctx es

end

mutual

def Stmt.resolve (ctx : Context) : Stmt Unit → Stmt Site
  | .block body => .block (Stmt.resolveAll (ctx.enter []) body)
  | .class name superclass methods =>
      let ctx := ctx.define name
      .class name (superclass.map fun base => (base.1, ctx.locate base.1.lexeme))
        (FunctionDecl.resolveMethods (ctx.inClass superclass.isSome) methods)
  | .expr e => .expr (e.resolve ctx)
  | .function decl => .function (decl.resolve (ctx.define decl.name) .function)
  | .ifThen condition thenBranch => .ifThen (condition.resolve ctx) (thenBranch.resolve ctx)
  | .ifElse condition thenBranch elseBranch =>
      .ifElse (condition.resolve ctx) (thenBranch.resolve ctx)
        (elseBranch.resolve (ctx.after thenBranch))
  | .print e => .print (e.resolve ctx)
  | .return keyword value => .return keyword (value.map (Expr.resolve ctx))
  | .var name init => .var name (init.map (Expr.resolve (ctx.declare name)))
  | .while condition body => .while (condition.resolve ctx) (body.resolve ctx)

def Stmt.resolveAll (ctx : Context) : List (Stmt Unit) → List (Stmt Site)
  | [] => []
  | s :: ss => s.resolve ctx :: Stmt.resolveAll (ctx.after s) ss

def FunctionDecl.resolve (ctx : Context) (kind : FunctionKind) :
    FunctionDecl Unit → FunctionDecl Site
  | ⟨name, params, body⟩ => ⟨name, params, Stmt.resolveAll (ctx.inFunction kind params) body⟩

def FunctionDecl.resolveMethods (ctx : Context) :
    List (FunctionDecl Unit) → List (FunctionDecl Site)
  | [] => []
  | d :: ds => d.resolve ctx (Context.methodKind d.name) :: FunctionDecl.resolveMethods ctx ds

end

/-- A whole program, bound. -/
def resolve (program : List (Stmt Unit)) : List (Stmt Site) :=
  Stmt.resolveAll .top program

end Lox
