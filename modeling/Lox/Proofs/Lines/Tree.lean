import Lox.Resolution.Bind
import Lox.Resolution.Check

/-!
# Trees on other lines

The lines of tokens can be renumbered in a tree without a change to anything else. Binding a tree
takes no notice of lines, and a fault only shows them.
-/

namespace Lox

def Token.renumber (g : Int → Int) (t : Token) : Token :=
  { t with line := g t.line }

section Tokens

variable (g : Int → Int) (t : Token)

@[simp]
theorem Token.renumber_kind : (t.renumber g).kind = t.kind := rfl

@[simp]
theorem Token.renumber_lexeme : (t.renumber g).lexeme = t.lexeme := rfl

@[simp]
theorem Token.renumber_literal : (t.renumber g).literal = t.literal := rfl

end Tokens

variable {ρ : Type}

mutual

def Expr.renumber (g : Int → Int) : Expr ρ → Expr ρ
  | .assign name site value => .assign (name.renumber g) site (value.renumber g)
  | .binary left operator right =>
      .binary (left.renumber g) (operator.renumber g) (right.renumber g)
  | .call callee paren arguments =>
      .call (callee.renumber g) (paren.renumber g) (Expr.renumberAll g arguments)
  | .get object name => .get (object.renumber g) (name.renumber g)
  | .group inner => .group (inner.renumber g)
  | .literal value => .literal value
  | .logical left operator right =>
      .logical (left.renumber g) (operator.renumber g) (right.renumber g)
  | .set object name value => .set (object.renumber g) (name.renumber g) (value.renumber g)
  | .super keyword site method => .super (keyword.renumber g) site (method.renumber g)
  | .this keyword site => .this (keyword.renumber g) site
  | .unary operator operand => .unary (operator.renumber g) (operand.renumber g)
  | .read name site => .read (name.renumber g) site

def Expr.renumberAll (g : Int → Int) : List (Expr ρ) → List (Expr ρ)
  | [] => []
  | e :: es => e.renumber g :: Expr.renumberAll g es

end

def renumberBase (g : Int → Int) (base : Token × ρ) : Token × ρ :=
  (base.1.renumber g, base.2)

mutual

def Stmt.renumber (g : Int → Int) : Stmt ρ → Stmt ρ
  | .block body => .block (Stmt.renumberAll g body)
  | .class name superclass methods =>
      .class (name.renumber g) (superclass.map (renumberBase g))
        (FunctionDecl.renumberAll g methods)
  | .expr e => .expr (e.renumber g)
  | .function decl => .function (decl.renumber g)
  | .ifThen condition thenBranch => .ifThen (condition.renumber g) (thenBranch.renumber g)
  | .ifElse condition thenBranch elseBranch =>
      .ifElse (condition.renumber g) (thenBranch.renumber g) (elseBranch.renumber g)
  | .print e => .print (e.renumber g)
  | .return keyword value => .return (keyword.renumber g) (value.map (Expr.renumber g))
  | .var name init => .var (name.renumber g) (init.map (Expr.renumber g))
  | .while condition body => .while (condition.renumber g) (body.renumber g)

def Stmt.renumberAll (g : Int → Int) : List (Stmt ρ) → List (Stmt ρ)
  | [] => []
  | s :: ss => s.renumber g :: Stmt.renumberAll g ss

def FunctionDecl.renumber (g : Int → Int) : FunctionDecl ρ → FunctionDecl ρ
  | ⟨name, params, body⟩ =>
      ⟨name.renumber g, params.map (Token.renumber g), Stmt.renumberAll g body⟩

def FunctionDecl.renumberAll (g : Int → Int) : List (FunctionDecl ρ) → List (FunctionDecl ρ)
  | [] => []
  | d :: ds => d.renumber g :: FunctionDecl.renumberAll g ds

end

/-! ### Binding names -/

section Binding

variable (g : Int → Int)

open Resolution

theorem Expr.length_renumberAll (es : List (Expr ρ)) :
    (Expr.renumberAll g es).length = es.length := by
  induction es with
  | nil => rfl
  | cons e es ih => simp [Expr.renumberAll, ih]

@[simp]
theorem FunctionDecl.renumber_name (d : FunctionDecl ρ) :
    (d.renumber g).name = d.name.renumber g := by
  cases d
  rfl

@[simp]
theorem FunctionDecl.renumber_params (d : FunctionDecl ρ) :
    (d.renumber g).params = d.params.map (Token.renumber g) := by
  cases d
  rfl

@[simp]
theorem FunctionDecl.renumber_body (d : FunctionDecl ρ) :
    (d.renumber g).body = Stmt.renumberAll g d.body := by
  cases d
  rfl

@[simp]
theorem Resolution.Context.declare_renumber (ctx : Context) (name : Token) :
    ctx.declare (name.renumber g) = ctx.declare name := rfl

@[simp]
theorem Resolution.Context.define_renumber (ctx : Context) (name : Token) :
    ctx.define (name.renumber g) = ctx.define name := rfl

@[simp]
theorem Resolution.Context.methodKind_renumber (name : Token) :
    Context.methodKind (name.renumber g) = Context.methodKind name := rfl

@[simp]
theorem Resolution.Context.inFunction_renumber (ctx : Context) (kind : FunctionKind)
    (params : List Token) :
    ctx.inFunction kind (params.map (Token.renumber g)) = ctx.inFunction kind params := by
  simp [Context.inFunction, List.foldl_map]

@[simp]
theorem Resolution.Context.after_renumber (ctx : Context) (s : Stmt ρ) :
    ctx.after (s.renumber g) = ctx.after s := by
  fun_induction Context.after ctx s <;> simp_all [Stmt.renumber, Context.after]

mutual

theorem Expr.resolve_renumber (ctx : Context) :
    (e : Expr Unit) → (e.renumber g).resolve ctx = (e.resolve ctx).renumber g
  | .assign _ _ value => by simp [Expr.renumber, Expr.resolve, resolve_renumber ctx value]
  | .binary left _ right => by
      simp [Expr.renumber, Expr.resolve, resolve_renumber ctx left, resolve_renumber ctx right]
  | .call callee _ arguments => by
      simp [Expr.renumber, Expr.resolve, resolve_renumber ctx callee,
        resolveAll_renumber ctx arguments]
  | .get object _ => by simp [Expr.renumber, Expr.resolve, resolve_renumber ctx object]
  | .group inner => by simp [Expr.renumber, Expr.resolve, resolve_renumber ctx inner]
  | .literal _ => rfl
  | .logical left _ right => by
      simp [Expr.renumber, Expr.resolve, resolve_renumber ctx left, resolve_renumber ctx right]
  | .set object _ value => by
      simp [Expr.renumber, Expr.resolve, resolve_renumber ctx object, resolve_renumber ctx value]
  | .super _ _ _ => rfl
  | .this _ _ => rfl
  | .unary _ operand => by simp [Expr.renumber, Expr.resolve, resolve_renumber ctx operand]
  | .read _ _ => rfl

theorem Expr.resolveAll_renumber (ctx : Context) : (es : List (Expr Unit)) →
    Expr.resolveAll ctx (Expr.renumberAll g es) = Expr.renumberAll g (Expr.resolveAll ctx es)
  | [] => rfl
  | e :: es => by
      simp [Expr.renumberAll, Expr.resolveAll, resolve_renumber ctx e, resolveAll_renumber ctx es]

end

mutual

theorem Stmt.resolve_renumber (ctx : Context) :
    (s : Stmt Unit) → (s.renumber g).resolve ctx = (s.resolve ctx).renumber g
  | .block body => by simp [Stmt.renumber, Stmt.resolve, Stmt.resolveAll_renumber _ body]
  | .class _ base methods => by
      cases base <;>
        simp [Stmt.renumber, Stmt.resolve, FunctionDecl.resolveMethods_renumber _ methods,
          renumberBase]
  | .expr e => by simp [Stmt.renumber, Stmt.resolve, Expr.resolve_renumber]
  | .function decl => by
      simp [Stmt.renumber, Stmt.resolve, FunctionDecl.resolve_renumber _ .function decl]
  | .ifThen _ yes => by
      simp [Stmt.renumber, Stmt.resolve, Expr.resolve_renumber, Stmt.resolve_renumber ctx yes]
  | .ifElse _ yes no => by
      simp [Stmt.renumber, Stmt.resolve, Expr.resolve_renumber, Stmt.resolve_renumber ctx yes,
        Stmt.resolve_renumber _ no]
  | .print e => by simp [Stmt.renumber, Stmt.resolve, Expr.resolve_renumber]
  | .return _ value => by
      cases value <;> simp [Stmt.renumber, Stmt.resolve, Expr.resolve_renumber]
  | .var _ init => by
      cases init <;> simp [Stmt.renumber, Stmt.resolve, Expr.resolve_renumber]
  | .while _ body => by
      simp [Stmt.renumber, Stmt.resolve, Expr.resolve_renumber, Stmt.resolve_renumber ctx body]

theorem Stmt.resolveAll_renumber (ctx : Context) : (ss : List (Stmt Unit)) →
    Stmt.resolveAll ctx (Stmt.renumberAll g ss) = Stmt.renumberAll g (Stmt.resolveAll ctx ss)
  | [] => rfl
  | s :: ss => by
      simp [Stmt.renumberAll, Stmt.resolveAll, Stmt.resolve_renumber ctx s,
        Stmt.resolveAll_renumber _ ss]

theorem FunctionDecl.resolve_renumber (ctx : Context) (kind : FunctionKind) :
    (d : FunctionDecl Unit) → (d.renumber g).resolve ctx kind = (d.resolve ctx kind).renumber g
  | ⟨_, _, body⟩ => by
      simp [FunctionDecl.renumber, FunctionDecl.resolve, Stmt.resolveAll_renumber _ body]

theorem FunctionDecl.resolveMethods_renumber (ctx : Context) : (ds : List (FunctionDecl Unit)) →
    FunctionDecl.resolveMethods ctx (FunctionDecl.renumberAll g ds) =
      FunctionDecl.renumberAll g (FunctionDecl.resolveMethods ctx ds)
  | [] => rfl
  | d :: ds => by
      simp [FunctionDecl.renumberAll, FunctionDecl.resolveMethods,
        FunctionDecl.resolve_renumber ctx _ d, FunctionDecl.resolveMethods_renumber ctx ds]

end

theorem resolve_renumber (program : List (Stmt Unit)) :
    resolve (Stmt.renumberAll g program) = Stmt.renumberAll g (resolve program) :=
  Stmt.resolveAll_renumber g .top program

end Binding

/-! ### Faults -/

def StaticError.renumber (g : Int → Int) (e : StaticError) : StaticError :=
  { e with token := e.token.renumber g }

section Faults

variable (g : Int → Int) (ctx : Resolution.Context)

open Resolution

theorem redeclaration_renumber (name : Token) :
    redeclaration ctx (name.renumber g) = (redeclaration ctx name).map (StaticError.renumber g) := by
  by_cases h : (ctx.inner? name.lexeme).isSome <;> simp [redeclaration, h, StaticError.renumber]

theorem readFaults_renumber (name : Token) :
    readFaults ctx (name.renumber g) = (readFaults ctx name).map (StaticError.renumber g) := by
  by_cases h : ctx.inner? name.lexeme = some false <;> simp [readFaults, h, StaticError.renumber]

theorem thisFaults_renumber (keyword : Token) :
    thisFaults ctx (keyword.renumber g) = (thisFaults ctx keyword).map (StaticError.renumber g) := by
  unfold thisFaults
  split <;> rfl

theorem superFaults_renumber (keyword : Token) :
    superFaults ctx (keyword.renumber g) =
      (superFaults ctx keyword).map (StaticError.renumber g) := by
  unfold superFaults
  cases ctx.classKind <;> rfl

theorem returnFaults_renumber (keyword : Token) (hasValue : Bool) :
    returnFaults ctx (keyword.renumber g) hasValue =
      (returnFaults ctx keyword hasValue).map (StaticError.renumber g) := by
  unfold returnFaults
  cases ctx.function <;> cases hasValue <;> rfl

theorem superclassFaults_renumber (name : Token) (base : Option (Token × Unit)) :
    superclassFaults ctx (name.renumber g) (base.map (renumberBase g)) =
      (superclassFaults ctx name base).map (StaticError.renumber g) := by
  cases base with
  | none => rfl
  | some base =>
      by_cases h : base.1.lexeme = name.lexeme <;>
        simp [superclassFaults, renumberBase, readFaults_renumber, h, StaticError.renumber]

theorem paramFaults_renumber (params : List Token) :
    paramFaults ctx (params.map (Token.renumber g)) =
      (paramFaults ctx params).map (StaticError.renumber g) := by
  induction params generalizing ctx with
  | nil => rfl
  | cons name names ih => simp [paramFaults, redeclaration_renumber, ih]

mutual

theorem Expr.faults_renumber :
    (e : Expr Unit) → (e.renumber g).faults ctx = (e.faults ctx).map (StaticError.renumber g)
  | .assign _ _ value => by simp [Expr.renumber, Expr.faults, faults_renumber value]
  | .binary left _ right => by
      simp [Expr.renumber, Expr.faults, faults_renumber left, faults_renumber right]
  | .call callee _ arguments => by
      simp [Expr.renumber, Expr.faults, faults_renumber callee, faultsAll_renumber arguments]
  | .get object _ => by simp [Expr.renumber, Expr.faults, faults_renumber object]
  | .group inner => by simp [Expr.renumber, Expr.faults, faults_renumber inner]
  | .literal _ => rfl
  | .logical left _ right => by
      simp [Expr.renumber, Expr.faults, faults_renumber left, faults_renumber right]
  | .set object _ value => by
      simp [Expr.renumber, Expr.faults, faults_renumber object, faults_renumber value]
  | .super keyword _ _ => superFaults_renumber g ctx keyword
  | .this keyword _ => thisFaults_renumber g ctx keyword
  | .unary _ operand => by simp [Expr.renumber, Expr.faults, faults_renumber operand]
  | .read name _ => readFaults_renumber g ctx name

theorem Expr.faultsAll_renumber : (es : List (Expr Unit)) →
    Expr.faultsAll ctx (Expr.renumberAll g es) =
      (Expr.faultsAll ctx es).map (StaticError.renumber g)
  | [] => rfl
  | e :: es => by
      simp [Expr.renumberAll, Expr.faultsAll, faults_renumber e, faultsAll_renumber es]

end

theorem Expr.faultsOf_renumber (e : Option (Expr Unit)) :
    Expr.faultsOf ctx (e.map (Expr.renumber g)) =
      (Expr.faultsOf ctx e).map (StaticError.renumber g) := by
  cases e with
  | none => rfl
  | some e => exact e.faults_renumber g ctx

end Faults

section Faults

variable (g : Int → Int)

open Resolution

mutual

theorem Stmt.faults_renumber (ctx : Context) :
    (s : Stmt Unit) → (s.renumber g).faults ctx = (s.faults ctx).map (StaticError.renumber g)
  | .block body => by simp [Stmt.renumber, Stmt.faults, Stmt.faultsAll_renumber _ body]
  | .class _ base methods => by
      simp [Stmt.renumber, Stmt.faults, redeclaration_renumber, superclassFaults_renumber,
        FunctionDecl.faultsAll_renumber _ methods]
  | .expr e => by simp [Stmt.renumber, Stmt.faults, Expr.faults_renumber]
  | .function decl => by
      simp [Stmt.renumber, Stmt.faults, redeclaration_renumber,
        FunctionDecl.faults_renumber _ .function decl]
  | .ifThen _ yes => by
      simp [Stmt.renumber, Stmt.faults, Expr.faults_renumber, Stmt.faults_renumber ctx yes]
  | .ifElse _ yes no => by
      simp [Stmt.renumber, Stmt.faults, Expr.faults_renumber, Stmt.faults_renumber ctx yes,
        Stmt.faults_renumber _ no]
  | .print e => by simp [Stmt.renumber, Stmt.faults, Expr.faults_renumber]
  | .return _ value => by
      simp [Stmt.renumber, Stmt.faults, returnFaults_renumber, Expr.faultsOf_renumber]
  | .var _ init => by
      simp [Stmt.renumber, Stmt.faults, redeclaration_renumber, Expr.faultsOf_renumber]
  | .while _ body => by
      simp [Stmt.renumber, Stmt.faults, Expr.faults_renumber, Stmt.faults_renumber ctx body]

theorem Stmt.faultsAll_renumber (ctx : Context) : (ss : List (Stmt Unit)) →
    Stmt.faultsAll ctx (Stmt.renumberAll g ss) =
      (Stmt.faultsAll ctx ss).map (StaticError.renumber g)
  | [] => rfl
  | s :: ss => by
      simp [Stmt.renumberAll, Stmt.faultsAll, Stmt.faults_renumber ctx s,
        Stmt.faultsAll_renumber _ ss]

theorem FunctionDecl.faults_renumber (ctx : Context) (kind : FunctionKind) :
    (d : FunctionDecl Unit) →
      (d.renumber g).faults ctx kind = (d.faults ctx kind).map (StaticError.renumber g)
  | ⟨_, _, body⟩ => by
      simp [FunctionDecl.renumber, FunctionDecl.faults, paramFaults_renumber,
        Stmt.faultsAll_renumber _ body]

theorem FunctionDecl.faultsAll_renumber (ctx : Context) : (ds : List (FunctionDecl Unit)) →
    FunctionDecl.faultsAll ctx (FunctionDecl.renumberAll g ds) =
      (FunctionDecl.faultsAll ctx ds).map (StaticError.renumber g)
  | [] => rfl
  | d :: ds => by
      simp [FunctionDecl.renumberAll, FunctionDecl.faultsAll, FunctionDecl.faults_renumber ctx _ d,
        FunctionDecl.faultsAll_renumber ctx ds]

end

theorem staticErrors_renumber (program : List (Stmt Unit)) :
    staticErrors (Stmt.renumberAll g program) =
      (staticErrors program).map (StaticError.renumber g) :=
  Stmt.faultsAll_renumber g .top program

end Faults

end Lox
