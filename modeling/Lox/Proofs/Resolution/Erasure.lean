import Lox.Proofs.Resolution.Walker

/-!
# Trees with their names bound

Binding the names of a tree annotates its uses and changes nothing else: without the annotations it is
the tree that was parsed.
-/

namespace Lox

open Resolution

mutual

theorem Expr.erase_resolve (ctx : Context) : (e : Expr Unit) → (e.resolve ctx).erase = e
  | .assign name _ value => by simp only [Expr.resolve, Expr.mapSites, value.erase_resolve]
  | .binary left operator right => by
      simp only [Expr.resolve, Expr.mapSites, left.erase_resolve, right.erase_resolve]
  | .call callee paren arguments => by
      simp only [Expr.resolve, Expr.mapSites, callee.erase_resolve, Expr.eraseAll_resolveAll]
  | .get object name => by simp only [Expr.resolve, Expr.mapSites, object.erase_resolve]
  | .group inner => by simp only [Expr.resolve, Expr.mapSites, inner.erase_resolve]
  | .literal _ => rfl
  | .logical left operator right => by
      simp only [Expr.resolve, Expr.mapSites, left.erase_resolve, right.erase_resolve]
  | .set object name value => by
      simp only [Expr.resolve, Expr.mapSites, object.erase_resolve, value.erase_resolve]
  | .super _ _ _ => rfl
  | .this _ _ => rfl
  | .unary operator operand => by simp only [Expr.resolve, Expr.mapSites, operand.erase_resolve]
  | .read _ _ => rfl

theorem Expr.eraseAll_resolveAll (ctx : Context) :
    (es : List (Expr Unit)) → Expr.eraseAll (Expr.resolveAll ctx es) = es
  | [] => rfl
  | e :: es => by
      simp only [Expr.resolveAll, Expr.mapSitesAll, e.erase_resolve, Expr.eraseAll_resolveAll ctx es]

end

theorem Expr.eraseOf_resolve (ctx : Context) (e : Option (Expr Unit)) :
    (e.map (Expr.resolve ctx)).map Expr.erase = e := by
  cases e with
  | none => rfl
  | some e => exact congrArg some (e.erase_resolve ctx)

mutual

theorem Stmt.erase_resolve (ctx : Context) : (s : Stmt Unit) → (s.resolve ctx).erase = s
  | .block body => by simp only [Stmt.resolve, Stmt.mapSites, Stmt.eraseAll_resolveAll]
  | .class name superclass methods => by
      simp only [Stmt.resolve, Stmt.mapSites, FunctionDecl.eraseAll_resolveMethods]
      cases superclass <;> rfl
  | .expr e => by simp only [Stmt.resolve, Stmt.mapSites, Expr.erase_resolve]
  | .function decl => by simp only [Stmt.resolve, Stmt.mapSites, decl.erase_resolve]
  | .ifThen condition thenBranch => by
      simp only [Stmt.resolve, Stmt.mapSites, Expr.erase_resolve, thenBranch.erase_resolve]
  | .ifElse condition thenBranch elseBranch => by
      simp only [Stmt.resolve, Stmt.mapSites, Expr.erase_resolve, thenBranch.erase_resolve,
        elseBranch.erase_resolve]
  | .print e => by simp only [Stmt.resolve, Stmt.mapSites, Expr.erase_resolve]
  | .return keyword value => by simp only [Stmt.resolve, Stmt.mapSites, Expr.eraseOf_resolve]
  | .var name init => by simp only [Stmt.resolve, Stmt.mapSites, Expr.eraseOf_resolve]
  | .while condition body => by
      simp only [Stmt.resolve, Stmt.mapSites, Expr.erase_resolve, body.erase_resolve]

theorem Stmt.eraseAll_resolveAll (ctx : Context) :
    (ss : List (Stmt Unit)) → Stmt.eraseAll (Stmt.resolveAll ctx ss) = ss
  | [] => rfl
  | s :: ss => by
      simp only [Stmt.resolveAll, Stmt.mapSitesAll, s.erase_resolve, Stmt.eraseAll_resolveAll _ ss]

theorem FunctionDecl.erase_resolve (ctx : Context) (kind : FunctionKind) :
    (d : FunctionDecl Unit) → (d.resolve ctx kind).erase = d
  | ⟨name, params, body⟩ => by
      simp only [FunctionDecl.resolve, FunctionDecl.mapSites, Stmt.eraseAll_resolveAll]

theorem FunctionDecl.eraseAll_resolveMethods (ctx : Context) : (ds : List (FunctionDecl Unit)) →
    FunctionDecl.eraseAll (FunctionDecl.resolveMethods ctx ds) = ds
  | [] => rfl
  | d :: ds => by
      simp only [FunctionDecl.resolveMethods, FunctionDecl.mapSitesAll, d.erase_resolve,
        FunctionDecl.eraseAll_resolveMethods ctx ds]

end

end Lox
