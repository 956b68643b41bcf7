import Lox.Resolution.Context
import Lox.Resolution.StaticError

/-!
The rules on where names, `return`, `this` and `super` may stand, checked on the walk that binds the
names.
-/

namespace Lox

namespace Resolution

/-- A second declaration of a name in the innermost scope is a fault. -/
def redeclaration (ctx : Context) (name : Token) : List StaticError :=
  if (ctx.inner? name.lexeme).isSome then [⟨name, .redeclared⟩] else []

def readFaults (ctx : Context) (name : Token) : List StaticError :=
  if ctx.inner? name.lexeme = some false then [⟨name, .readInOwnInitializer⟩] else []

def thisFaults (ctx : Context) (keyword : Token) : List StaticError :=
  if ctx.classKind = .none then [⟨keyword, .thisOutsideClass⟩] else []

def superFaults (ctx : Context) (keyword : Token) : List StaticError :=
  match ctx.classKind with
  | .none => [⟨keyword, .superOutsideClass⟩]
  | .plain => [⟨keyword, .superWithoutSuperclass⟩]
  | .derived => []

def returnFaults (ctx : Context) (keyword : Token) (hasValue : Bool) : List StaticError :=
  match ctx.function with
  | .none => [⟨keyword, .returnOutsideFunction⟩]
  | .initializer => if hasValue then [⟨keyword, .returnFromInitializer⟩] else []
  | _ => []

def superclassFaults (ctx : Context) (name : Token) : Option (Token × Unit) → List StaticError
  | none => []
  | some (base, _) =>
      (if base.lexeme = name.lexeme then [⟨base, .inheritsFromItself⟩] else []) ++
        readFaults ctx base

def paramFaults (ctx : Context) : List Token → List StaticError
  | [] => []
  | name :: names => redeclaration ctx name ++ paramFaults (ctx.define name) names

end Resolution

open Resolution

mutual

def Expr.faults (ctx : Context) : Expr Unit → List StaticError
  | .assign _ _ value => value.faults ctx
  | .binary left _ right => left.faults ctx ++ right.faults ctx
  | .call callee _ arguments => callee.faults ctx ++ Expr.faultsAll ctx arguments
  | .get object _ => object.faults ctx
  | .group inner => inner.faults ctx
  | .literal _ => []
  | .logical left _ right => left.faults ctx ++ right.faults ctx
  | .set object _ value => value.faults ctx ++ object.faults ctx
  | .super keyword _ _ => superFaults ctx keyword
  | .this keyword _ => thisFaults ctx keyword
  | .unary _ operand => operand.faults ctx
  | .read name _ => readFaults ctx name

def Expr.faultsAll (ctx : Context) : List (Expr Unit) → List StaticError
  | [] => []
  | e :: es => e.faults ctx ++ Expr.faultsAll ctx es

end

def Expr.faultsOf (ctx : Context) : Option (Expr Unit) → List StaticError
  | none => []
  | some e => e.faults ctx

mutual

def Stmt.faults (ctx : Context) : Stmt Unit → List StaticError
  | .block body => Stmt.faultsAll (ctx.enter []) body
  | .class name superclass methods =>
      redeclaration ctx name ++ superclassFaults (ctx.define name) name superclass ++
        FunctionDecl.faultsAll ((ctx.define name).inClass superclass.isSome) methods
  | .expr e => e.faults ctx
  | .function decl => redeclaration ctx decl.name ++ decl.faults (ctx.define decl.name) .function
  | .ifThen condition thenBranch => condition.faults ctx ++ thenBranch.faults ctx
  | .ifElse condition thenBranch elseBranch =>
      condition.faults ctx ++ thenBranch.faults ctx ++ elseBranch.faults (ctx.after thenBranch)
  | .print e => e.faults ctx
  | .return keyword value => returnFaults ctx keyword value.isSome ++ Expr.faultsOf ctx value
  | .var name init => redeclaration ctx name ++ Expr.faultsOf (ctx.declare name) init
  | .while condition body => condition.faults ctx ++ body.faults ctx

def Stmt.faultsAll (ctx : Context) : List (Stmt Unit) → List StaticError
  | [] => []
  | s :: ss => s.faults ctx ++ Stmt.faultsAll (ctx.after s) ss

def FunctionDecl.faults (ctx : Context) (kind : FunctionKind) :
    FunctionDecl Unit → List StaticError
  | ⟨_, params, body⟩ =>
      paramFaults (ctx.inFunction kind []) params ++
        Stmt.faultsAll (ctx.inFunction kind params) body

def FunctionDecl.faultsAll (ctx : Context) : List (FunctionDecl Unit) → List StaticError
  | [] => []
  | d :: ds => d.faults ctx (Context.methodKind d.name) ++ FunctionDecl.faultsAll ctx ds

end

/-- The rules that a whole program breaks, in the order of the walk. -/
def staticErrors (program : List (Stmt Unit)) : List StaticError :=
  Stmt.faultsAll .top program

end Lox
