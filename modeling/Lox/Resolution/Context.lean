import Lox.Tree

/-!
What surrounds a piece of code: the innermost function and class, and the scopes with the names that
they have declared so far.
-/

namespace Lox

namespace Resolution

/-- The innermost function around a piece of code. -/
inductive FunctionKind where
  | none
  | function
  | method
  | initializer
  deriving DecidableEq, Repr

/-- The innermost class around a piece of code. -/
inductive ClassKind where
  | none
  | plain
  | derived
  deriving DecidableEq, Repr

/-- The names that a scope has declared so far, and whether each can be read yet. -/
abbrev Frame := List (Bytes × Bool)

/-- What surrounds a piece of code. The innermost scope comes first; globals are in none. -/
structure Context where
  function : FunctionKind
  classKind : ClassKind
  scopes : List Frame

namespace Context

def top : Context :=
  ⟨.none, .none, []⟩

/-- Declares a name in the innermost scope. Globals are not tracked. -/
def mark (ctx : Context) (name : Bytes) (ready : Bool) : Context :=
  match ctx.scopes with
  | [] => ctx
  | frame :: outer => { ctx with scopes := ((name, ready) :: frame) :: outer }

/-- The state of a name in the innermost scope. -/
def inner? (ctx : Context) (name : Bytes) : Option Bool :=
  match ctx.scopes with
  | [] => none
  | frame :: _ => frame.lookup name

def declare (ctx : Context) (name : Token) : Context :=
  ctx.mark name.lexeme false

def define (ctx : Context) (name : Token) : Context :=
  ctx.mark name.lexeme true

def enter (ctx : Context) (frame : Frame) : Context :=
  { ctx with scopes := frame :: ctx.scopes }

/-- The number of scopes between a use and the innermost one that declares its name. -/
def locate (ctx : Context) (name : Bytes) : Site :=
  ctx.scopes.findIdx? fun frame => (frame.lookup name).isSome

/-- The body of a function shares one scope with its parameters. -/
def inFunction (ctx : Context) (kind : FunctionKind) (params : List Token) : Context :=
  params.foldl define ({ ctx with function := kind }.enter [])

/-- Methods stand in a scope for `this`, which in a derived class stands in one for `super`. -/
def inClass (ctx : Context) (derived : Bool) : Context :=
  if derived then
    ({ ctx with classKind := .derived }.enter [(superName, true)]).enter [(thisName, true)]
  else
    { ctx with classKind := .plain }.enter [(thisName, true)]

def methodKind (name : Token) : FunctionKind :=
  if name.lexeme = initName then .initializer else .method

def locateThis (ctx : Context) (keyword : Token) : Site :=
  if ctx.classKind = .none then none else ctx.locate keyword.lexeme

/-- The context behind a statement: what it declares outside of its own scopes stays declared. -/
def after {ρ : Type} (ctx : Context) : Stmt ρ → Context
  | .block _ => ctx
  | .class name _ _ => ctx.define name
  | .expr _ => ctx
  | .function decl => ctx.define decl.name
  | .ifThen _ thenBranch => ctx.after thenBranch
  | .ifElse _ thenBranch elseBranch => (ctx.after thenBranch).after elseBranch
  | .print _ => ctx
  | .return _ _ => ctx
  | .var name _ => ctx.define name
  | .while _ body => ctx.after body
termination_by structural s => s

end Context

end Resolution

end Lox
