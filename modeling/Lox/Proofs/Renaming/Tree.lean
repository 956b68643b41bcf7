import Lox.Tree

/-!
# Trees with a variable renamed

A variable is a name in one scope. To rename it is to respell the token that declares it and the
uses that are bound to that scope under its name; the distance of a use says to which scope it is
bound. The same name in other scopes stays.
-/

namespace Lox

/-- A word that can be the name of a variable: it is not reserved. -/
def isName : Bytes → Bool
  | [] => false
  | c :: s =>
      Bytes.isLetter c && s.all Bytes.isWordByte && Token.Kind.ofWord (c :: s) == .identifier

structure Renaming where
  old : Bytes
  new : Bytes
  isName_old : isName old = true
  isName_new : isName new = true

/-- Whether the scope that a use is bound to is marked. The marks are those of the scopes around,
the innermost first; what lies further out is not marked. -/
def marked (marks : List Bool) : Site → Bool
  | none => false
  | some distance => marks.getD distance false

/-- Methods stand in a scope for `this`, which in a derived class stands in one for `super`. -/
def methodMarks (derived : Bool) (marks : List Bool) : List Bool :=
  false :: if derived then false :: marks else marks

namespace Renaming

def token (r : Renaming) (isMarked : Bool) (t : Token) : Token :=
  if isMarked = true ∧ t.lexeme = r.old then { t with lexeme := r.new } else t

/-- A use that is bound to a marked scope under the old name gets the new one. -/
def use (r : Renaming) (marks : List Bool) (site : Site) (t : Token) : Token :=
  r.token (marked marks site) t

/-- A declaration is in the innermost scope. -/
def binder (r : Renaming) (marks : List Bool) (t : Token) : Token :=
  r.use marks (some 0) t

end Renaming

/-! ### Renaming -/

mutual

/-- The expression with the variable renamed in the marked scopes around it. -/
def Expr.rename (r : Renaming) (marks : List Bool) : Expr Site → Expr Site
  | .assign name site value => .assign (r.use marks site name) site (value.rename r marks)
  | .binary left operator right => .binary (left.rename r marks) operator (right.rename r marks)
  | .call callee paren arguments =>
      .call (callee.rename r marks) paren (Expr.renameAll r marks arguments)
  | .get object name => .get (object.rename r marks) name
  | .group inner => .group (inner.rename r marks)
  | .literal value => .literal value
  | .logical left operator right => .logical (left.rename r marks) operator (right.rename r marks)
  | .set object name value => .set (object.rename r marks) name (value.rename r marks)
  | .super keyword site method => .super keyword site method
  | .this keyword site => .this keyword site
  | .unary operator operand => .unary operator (operand.rename r marks)
  | .read name site => .read (r.use marks site name) site

def Expr.renameAll (r : Renaming) (marks : List Bool) : List (Expr Site) → List (Expr Site)
  | [] => []
  | e :: es => e.rename r marks :: Expr.renameAll r marks es

end

def renameBase (r : Renaming) (marks : List Bool) (base : Token × Site) : Token × Site :=
  (r.use marks base.2 base.1, base.2)

mutual

/-- Scopes inside the statement are not marked. Only variables are renamed, so the names of
functions and classes stay. -/
def Stmt.rename (r : Renaming) (marks : List Bool) : Stmt Site → Stmt Site
  | .block body => .block (Stmt.renameAll r (false :: marks) body)
  | .class name superclass methods =>
      .class name (superclass.map (renameBase r marks))
        (FunctionDecl.renameAll r (methodMarks superclass.isSome marks) methods)
  | .expr e => .expr (e.rename r marks)
  | .function decl => .function (decl.rename r (false :: marks))
  | .ifThen condition thenBranch =>
      .ifThen (condition.rename r marks) (thenBranch.rename r marks)
  | .ifElse condition thenBranch elseBranch =>
      .ifElse (condition.rename r marks) (thenBranch.rename r marks) (elseBranch.rename r marks)
  | .print e => .print (e.rename r marks)
  | .return keyword value => .return keyword (value.map (Expr.rename r marks))
  | .var name init => .var (r.binder marks name) (init.map (Expr.rename r marks))
  | .while condition body => .while (condition.rename r marks) (body.rename r marks)

def Stmt.renameAll (r : Renaming) (marks : List Bool) : List (Stmt Site) → List (Stmt Site)
  | [] => []
  | s :: ss => s.rename r marks :: Stmt.renameAll r marks ss

/-- The first mark is that of the scope of the parameters and the body. -/
def FunctionDecl.rename (r : Renaming) (marks : List Bool) : FunctionDecl Site → FunctionDecl Site
  | ⟨name, params, body⟩ => ⟨name, params.map (r.binder marks), Stmt.renameAll r marks body⟩

def FunctionDecl.renameAll (r : Renaming) (marks : List Bool) :
    List (FunctionDecl Site) → List (FunctionDecl Site)
  | [] => []
  | d :: ds => d.rename r (false :: marks) :: FunctionDecl.renameAll r marks ds

end

/-- The scope of a block or a function declares the variable: as a parameter or in its body. -/
def DeclaresVariable {ρ : Type} (name : Bytes) (params : List Token) (body : List (Stmt ρ)) :
    Prop :=
  (∃ param ∈ params, param.lexeme = name) ∨
    ∃ token init, .var token init ∈ body ∧ token.lexeme = name

mutual

/-- The second statement is the first one with the variable of one of its scopes renamed. The scopes
around it are not marked. -/
inductive Stmt.Renames (r : Renaming) : List Bool → Stmt Site → Stmt Site → Prop where
  | scope {marks : List Bool} {body : List (Stmt Site)} (h : DeclaresVariable r.old [] body) :
      Stmt.Renames r marks (.block body) (.block (Stmt.renameAll r (true :: marks) body))
  | block {marks : List Bool} {body body' : List (Stmt Site)}
      (h : Stmt.RenamesAll r (false :: marks) body body') :
      Stmt.Renames r marks (.block body) (.block body')
  | class {marks : List Bool} {name : Token} {superclass : Option (Token × Site)}
      {methods methods' : List (FunctionDecl Site)}
      (h : FunctionDecl.RenamesAll r (methodMarks superclass.isSome marks) methods methods') :
      Stmt.Renames r marks (.class name superclass methods) (.class name superclass methods')
  | function {marks : List Bool} {decl decl' : FunctionDecl Site}
      (h : FunctionDecl.Renames r marks decl decl') :
      Stmt.Renames r marks (.function decl) (.function decl')
  | ifThen {marks : List Bool} {condition : Expr Site} {yes yes' : Stmt Site}
      (h : Stmt.Renames r marks yes yes') :
      Stmt.Renames r marks (.ifThen condition yes) (.ifThen condition yes')
  | thenBranch {marks : List Bool} {condition : Expr Site} {yes yes' no : Stmt Site}
      (h : Stmt.Renames r marks yes yes') :
      Stmt.Renames r marks (.ifElse condition yes no) (.ifElse condition yes' no)
  | elseBranch {marks : List Bool} {condition : Expr Site} {yes no no' : Stmt Site}
      (h : Stmt.Renames r marks no no') :
      Stmt.Renames r marks (.ifElse condition yes no) (.ifElse condition yes no')
  | while {marks : List Bool} {condition : Expr Site} {body body' : Stmt Site}
      (h : Stmt.Renames r marks body body') :
      Stmt.Renames r marks (.while condition body) (.while condition body')

inductive Stmt.RenamesAll (r : Renaming) :
    List Bool → List (Stmt Site) → List (Stmt Site) → Prop where
  | head {marks : List Bool} {s s' : Stmt Site} {ss : List (Stmt Site)}
      (h : Stmt.Renames r marks s s') : Stmt.RenamesAll r marks (s :: ss) (s' :: ss)
  | tail {marks : List Bool} {s : Stmt Site} {ss ss' : List (Stmt Site)}
      (h : Stmt.RenamesAll r marks ss ss') : Stmt.RenamesAll r marks (s :: ss) (s :: ss')

inductive FunctionDecl.Renames (r : Renaming) :
    List Bool → FunctionDecl Site → FunctionDecl Site → Prop where
  | scope {marks : List Bool} {decl : FunctionDecl Site}
      (h : DeclaresVariable r.old decl.params decl.body) :
      FunctionDecl.Renames r marks decl (decl.rename r (true :: marks))
  | body {marks : List Bool} {name : Token} {params : List Token} {body body' : List (Stmt Site)}
      (h : Stmt.RenamesAll r (false :: marks) body body') :
      FunctionDecl.Renames r marks ⟨name, params, body⟩ ⟨name, params, body'⟩

inductive FunctionDecl.RenamesAll (r : Renaming) :
    List Bool → List (FunctionDecl Site) → List (FunctionDecl Site) → Prop where
  | head {marks : List Bool} {d d' : FunctionDecl Site} {ds : List (FunctionDecl Site)}
      (h : FunctionDecl.Renames r marks d d') :
      FunctionDecl.RenamesAll r marks (d :: ds) (d' :: ds)
  | tail {marks : List Bool} {d : FunctionDecl Site} {ds ds' : List (FunctionDecl Site)}
      (h : FunctionDecl.RenamesAll r marks ds ds') :
      FunctionDecl.RenamesAll r marks (d :: ds) (d :: ds')

end

/-- The second program is the first one with one of its local variables renamed. Globals are in no
scope of the text. -/
abbrev RenamesLocal (r : Renaming) (program renamed : List (Stmt Site)) : Prop :=
  Stmt.RenamesAll r [] program renamed

end Lox
