import Lox.Proofs.Grammar.Expression
import Lox.Tree

/-!
# The grammar of statements and declarations

The rules of the language above expressions, with the tree that each list of tokens denotes. As
written they leave open to which `if` an `else` belongs. A statement is therefore marked as dangling
if it ends with an `if` that has no `else`, and under the rule of the nearest `if` no dangling
statement stands in front of an `else`.
-/

namespace Lox.Grammar

/-- A phrase that may be left out. -/
inductive Optionally {α : Type} (D : List Token → α → Prop) : List Token → Option α → Prop where
  | absent : Optionally D [] none
  | present {u : List Token} {a : α} (h : D u a) : Optionally D u (some a)

inductive ExpressionStatement : List Token → Stmt Unit → Prop where
  | mk {u : List Token} {e : Expr Unit} {semicolon : Token} (h : Expression u e)
      (hend : semicolon.kind = .semicolon) : ExpressionStatement (u ++ [semicolon]) (.expr e)

inductive VariableDeclaration : List Token → Stmt Unit → Prop where
  | plain {keyword name semicolon : Token} (hkeyword : keyword.kind = .varWord)
      (hname : name.kind = .identifier) (hend : semicolon.kind = .semicolon) :
      VariableDeclaration [keyword, name, semicolon] (.var name none)
  | initialized {keyword name equal semicolon : Token} {u : List Token} {e : Expr Unit}
      (hkeyword : keyword.kind = .varWord) (hname : name.kind = .identifier)
      (hequal : equal.kind = .equal) (h : Expression u e) (hend : semicolon.kind = .semicolon) :
      VariableDeclaration (keyword :: name :: equal :: u ++ [semicolon]) (.var name (some e))

/-- The first clause of a `for` loop, with its semicolon. -/
inductive Initializer : List Token → Option (Stmt Unit) → Prop where
  | absent {semicolon : Token} (hend : semicolon.kind = .semicolon) : Initializer [semicolon] none
  | variableDecl {u : List Token} {s : Stmt Unit} (h : VariableDeclaration u s) :
      Initializer u (some s)
  | expressionStmt {u : List Token} {s : Stmt Unit} (h : ExpressionStatement u s) :
      Initializer u (some s)

inductive Superclass : List Token → Option (Token × Unit) → Prop where
  | absent : Superclass [] none
  | present {less name : Token} (hless : less.kind = .less) (hname : name.kind = .identifier) :
      Superclass [less, name] (some (name, ()))

def Parameter (u : List Token) (name : Token) : Prop :=
  u = [name] ∧ name.kind = .identifier

inductive Parameters : List Token → List Token → Prop where
  | absent : Parameters [] []
  | present {u names : List Token} (h : Separated Parameter u names)
      (hlimit : names.length ≤ maxItems) : Parameters u names

/-! ### Loops with clauses -/

/-- An increment runs behind the body, in one block with it. -/
def withIncrement : Option (Expr Unit) → Stmt Unit → Stmt Unit
  | none, body => body
  | some e, body => .block [body, .expr e]

/-- A loop without a condition goes on. -/
def whileTree : Option (Expr Unit) → Stmt Unit → Stmt Unit
  | none, body => .while (.literal (.bool true)) body
  | some condition, body => .while condition body

/-- An initializer runs once in front of the loop, in one block with it. -/
def withInitializer : Option (Stmt Unit) → Stmt Unit → Stmt Unit
  | none, loop => loop
  | some s, loop => .block [s, loop]

def forTree (init : Option (Stmt Unit)) (condition increment : Option (Expr Unit))
    (body : Stmt Unit) : Stmt Unit :=
  withInitializer init (whileTree condition (withIncrement increment body))

/-! ### The rules -/

/-- What the rules above expressions derive. -/
inductive Clause where
  | statement (dangling : Bool)
  | declaration
  | declarations
  | function
  | methods

abbrev Clause.Tree : Clause → Type
  | .statement _ | .declaration => Stmt Unit
  | .declarations => List (Stmt Unit)
  | .function => FunctionDecl Unit
  | .methods => List (FunctionDecl Unit)

/-- The rules as written, or if `nearest` holds those of the nearest `if`. -/
inductive Clause.Derives (nearest : Bool) : (x : Clause) → List Token → x.Tree → Prop where
  | exprStmt {u : List Token} {s : Stmt Unit} (h : ExpressionStatement u s) :
      Derives nearest (.statement false) u s
  | printStmt {keyword semicolon : Token} {u : List Token} {e : Expr Unit}
      (hkeyword : keyword.kind = .printWord) (h : Expression u e)
      (hend : semicolon.kind = .semicolon) :
      Derives nearest (.statement false) (keyword :: u ++ [semicolon]) (.print e)
  | returnStmt {keyword semicolon : Token} {u : List Token} {value : Option (Expr Unit)}
      (hkeyword : keyword.kind = .returnWord) (h : Optionally Expression u value)
      (hend : semicolon.kind = .semicolon) :
      Derives nearest (.statement false) (keyword :: u ++ [semicolon]) (.return keyword value)
  | blockStmt {left right : Token} {u : List Token} {body : List (Stmt Unit)}
      (hleft : left.kind = .leftBrace) (h : Derives nearest .declarations u body)
      (hright : right.kind = .rightBrace) :
      Derives nearest (.statement false) (left :: u ++ [right]) (.block body)
  | whileStmt {keyword left right : Token} {u w : List Token} {condition : Expr Unit}
      {dangling : Bool} {body : Stmt Unit} (hkeyword : keyword.kind = .whileWord)
      (hleft : left.kind = .leftParen) (hcondition : Expression u condition)
      (hright : right.kind = .rightParen) (hbody : Derives nearest (.statement dangling) w body) :
      Derives nearest (.statement dangling) (keyword :: left :: u ++ right :: w)
        (.while condition body)
  | forStmt {keyword left semicolon right : Token} {u v w x : List Token}
      {init : Option (Stmt Unit)} {condition increment : Option (Expr Unit)} {dangling : Bool}
      {body : Stmt Unit} (hkeyword : keyword.kind = .forWord) (hleft : left.kind = .leftParen)
      (hinit : Initializer u init) (hcondition : Optionally Expression v condition)
      (hend : semicolon.kind = .semicolon) (hincrement : Optionally Expression w increment)
      (hright : right.kind = .rightParen) (hbody : Derives nearest (.statement dangling) x body) :
      Derives nearest (.statement dangling)
        (keyword :: left :: u ++ v ++ semicolon :: w ++ right :: x)
        (forTree init condition increment body)
  | ifThen {keyword left right : Token} {u w : List Token} {condition : Expr Unit}
      {dangling : Bool} {body : Stmt Unit} (hkeyword : keyword.kind = .ifWord)
      (hleft : left.kind = .leftParen) (hcondition : Expression u condition)
      (hright : right.kind = .rightParen) (hbody : Derives nearest (.statement dangling) w body) :
      Derives nearest (.statement true) (keyword :: left :: u ++ right :: w)
        (.ifThen condition body)
  | ifElse {keyword left right other : Token} {u w x : List Token} {condition : Expr Unit}
      {inner dangling : Bool} {yes no : Stmt Unit} (hkeyword : keyword.kind = .ifWord)
      (hleft : left.kind = .leftParen) (hcondition : Expression u condition)
      (hright : right.kind = .rightParen) (hyes : Derives nearest (.statement inner) w yes)
      (hnearest : nearest = true → inner = false) (hother : other.kind = .elseWord)
      (hno : Derives nearest (.statement dangling) x no) :
      Derives nearest (.statement dangling) (keyword :: left :: u ++ right :: w ++ other :: x)
        (.ifElse condition yes no)
  | statementDecl {dangling : Bool} {u : List Token} {s : Stmt Unit}
      (h : Derives nearest (.statement dangling) u s) : Derives nearest .declaration u s
  | variableDecl {u : List Token} {s : Stmt Unit} (h : VariableDeclaration u s) :
      Derives nearest .declaration u s
  | functionDecl {keyword : Token} {u : List Token} {d : FunctionDecl Unit}
      (hkeyword : keyword.kind = .funWord) (h : Derives nearest .function u d) :
      Derives nearest .declaration (keyword :: u) (.function d)
  | classDecl {keyword name left right : Token} {u w : List Token}
      {superclass : Option (Token × Unit)} {ds : List (FunctionDecl Unit)}
      (hkeyword : keyword.kind = .classWord) (hname : name.kind = .identifier)
      (hsuperclass : Superclass u superclass) (hleft : left.kind = .leftBrace)
      (hmethods : Derives nearest .methods w ds) (hright : right.kind = .rightBrace) :
      Derives nearest .declaration (keyword :: name :: u ++ left :: w ++ [right])
        (.class name superclass ds)
  | noDeclarations : Derives nearest .declarations [] []
  | declarations {u w : List Token} {s : Stmt Unit} {ss : List (Stmt Unit)}
      (h : Derives nearest .declaration u s) (hothers : Derives nearest .declarations w ss) :
      Derives nearest .declarations (u ++ w) (s :: ss)
  | function {name left right opening closing : Token} {u w params : List Token}
      {body : List (Stmt Unit)} (hname : name.kind = .identifier) (hleft : left.kind = .leftParen)
      (hparams : Parameters u params) (hright : right.kind = .rightParen)
      (hopening : opening.kind = .leftBrace) (hbody : Derives nearest .declarations w body)
      (hclosing : closing.kind = .rightBrace) :
      Derives nearest .function (name :: left :: u ++ right :: opening :: w ++ [closing])
        ⟨name, params, body⟩
  | noMethods : Derives nearest .methods [] []
  | methods {u w : List Token} {d : FunctionDecl Unit} {ds : List (FunctionDecl Unit)}
      (h : Derives nearest .function u d) (hothers : Derives nearest .methods w ds) :
      Derives nearest .methods (u ++ w) (d :: ds)

/-- A program by the rules as written. -/
abbrev Program (u : List Token) (ss : List (Stmt Unit)) : Prop :=
  Clause.Derives false .declarations u ss

/-- A program in which each `else` belongs to the nearest `if`. -/
abbrev NearestProgram (u : List Token) (ss : List (Stmt Unit)) : Prop :=
  Clause.Derives true .declarations u ss

/-! ### How statements and declarations begin -/

def opensStatement (kind : Token.Kind) : Bool :=
  startsExpression kind ||
    [.printWord, .returnWord, .leftBrace, .whileWord, .forWord, .ifWord].contains kind

def opensDeclaration (kind : Token.Kind) : Bool :=
  opensStatement kind || [.varWord, .funWord, .classWord].contains kind

theorem ExpressionStatement.begins {u : List Token} {s : Stmt Unit} (h : ExpressionStatement u s) :
    BeginsWith startsExpression u := by
  obtain ⟨h, -⟩ := h
  exact (Level.Derives.begins h).append _

theorem VariableDeclaration.begins {u : List Token} {s : Stmt Unit}
    (h : VariableDeclaration u s) : BeginsWith (· == .varWord) u := by
  cases h with
  | plain hkeyword _ _ => exact ⟨_, _, rfl, by rw [hkeyword]; rfl⟩
  | initialized hkeyword _ _ _ _ => exact ⟨_, _, rfl, by rw [hkeyword]; rfl⟩

/-- How a clause that cannot be empty begins. -/
def Clause.Begins : Clause → List Token → Prop
  | .statement _, u => BeginsWith opensStatement u
  | .declaration, u => BeginsWith opensDeclaration u
  | .function, u => BeginsWith (· == .identifier) u
  | .declarations, _ => True
  | .methods, _ => True

theorem Clause.Derives.begins {nearest : Bool} {x : Clause} {u : List Token} {t : x.Tree}
    (h : x.Derives nearest u t) : x.Begins u := by
  induction h with
  | exprStmt h => exact h.begins.mono fun kind hkind => by simp [opensStatement, hkind]
  | printStmt hkeyword _ _ => exact ⟨_, _, rfl, by rw [hkeyword]; rfl⟩
  | returnStmt hkeyword _ _ => exact ⟨_, _, rfl, by rw [hkeyword]; rfl⟩
  | blockStmt hleft _ _ _ => exact ⟨_, _, rfl, by rw [hleft]; rfl⟩
  | whileStmt hkeyword _ _ _ _ _ => exact ⟨_, _, rfl, by rw [hkeyword]; rfl⟩
  | forStmt hkeyword _ _ _ _ _ _ _ _ => exact ⟨_, _, rfl, by rw [hkeyword]; rfl⟩
  | ifThen hkeyword _ _ _ _ _ => exact ⟨_, _, rfl, by rw [hkeyword]; rfl⟩
  | ifElse hkeyword _ _ _ _ _ _ _ _ _ => exact ⟨_, _, rfl, by rw [hkeyword]; rfl⟩
  | statementDecl _ ih => exact ih.mono fun kind hkind => by simp [opensDeclaration, hkind]
  | variableDecl h =>
      refine h.begins.mono fun kind hkind => ?_
      rw [eq_of_beq hkind]
      rfl
  | functionDecl hkeyword _ _ => exact ⟨_, _, rfl, by rw [hkeyword]; rfl⟩
  | classDecl hkeyword _ _ _ _ _ _ => exact ⟨_, _, rfl, by rw [hkeyword]; rfl⟩
  | noDeclarations => trivial
  | declarations _ _ _ _ => trivial
  | function hname _ _ _ _ _ _ _ => exact ⟨_, _, rfl, by rw [hname]; rfl⟩
  | noMethods => trivial
  | methods _ _ _ _ => trivial

/-! ### The nearest `if`

A list that the rules as written derive is also derivable under the rule of the nearest `if`, perhaps
with another tree: an `else` behind a dangling statement moves to the innermost `if` without one. -/

/-- A dangling statement takes an `else` that follows it. -/
def Clause.TakesElse : Clause → List Token → Prop
  | .statement true, u =>
      ∀ {other : Token} {w : List Token} {dangling : Bool} {no : Stmt Unit},
        other.kind = .elseWord → Clause.Derives true (.statement dangling) w no →
        ∃ dangling s, Clause.Derives true (.statement dangling) (u ++ other :: w) s
  | _, _ => True

theorem Clause.Derives.takesElse {x : Clause} {u : List Token} {t : x.Tree}
    (h : x.Derives true u t) : x.TakesElse u := by
  induction h with
  | @whileStmt _ _ _ _ _ _ dangling _ hkeyword hleft hcondition hright _ ih =>
      cases dangling with
      | false => trivial
      | true =>
          intro other w _ no hother hno
          obtain ⟨dangling, s, hs⟩ := ih hother hno
          have hwhile := Clause.Derives.whileStmt hkeyword hleft hcondition hright hs
          exact ⟨dangling, _, by simpa using hwhile⟩
  | @forStmt _ _ _ _ _ _ _ _ _ _ _ dangling _ hkeyword hleft hinit hcondition hend hincrement
      hright _ ih =>
      cases dangling with
      | false => trivial
      | true =>
          intro other w _ no hother hno
          obtain ⟨dangling, s, hs⟩ := ih hother hno
          have hfor := Clause.Derives.forStmt hkeyword hleft hinit hcondition hend hincrement
            hright hs
          exact ⟨dangling, _, by simpa using hfor⟩
  | @ifThen _ _ _ _ _ _ dangling _ hkeyword hleft hcondition hright hbody ih =>
      intro other w _ no hother hno
      cases dangling with
      | false =>
          exact ⟨_, _, .ifElse hkeyword hleft hcondition hright hbody (fun _ => rfl) hother hno⟩
      | true =>
          obtain ⟨dangling, s, hs⟩ := ih hother hno
          have hif := Clause.Derives.ifThen hkeyword hleft hcondition hright hs
          exact ⟨true, _, by simpa using hif⟩
  | @ifElse _ _ _ _ _ _ _ _ _ dangling _ _ hkeyword hleft hcondition hright hyes hnearest hother _
      _ ih =>
      cases dangling with
      | false => trivial
      | true =>
          intro other' w _ no hother' hno
          obtain ⟨dangling, s, hs⟩ := ih hother' hno
          have hif := Clause.Derives.ifElse hkeyword hleft hcondition hright hyes hnearest hother hs
          exact ⟨dangling, _, by simpa using hif⟩
  | _ => trivial

/-- A derivation by the rule of the nearest `if`; whether a statement dangles is left open. -/
def Clause.HasNearest : Clause → List Token → Prop
  | .statement _, u => ∃ dangling s, Clause.Derives true (.statement dangling) u s
  | .declaration, u => ∃ s, Clause.Derives true .declaration u s
  | .declarations, u => ∃ ss, Clause.Derives true .declarations u ss
  | .function, u => ∃ d, Clause.Derives true .function u d
  | .methods, u => ∃ ds, Clause.Derives true .methods u ds

theorem Clause.Derives.hasNearest {nearest : Bool} {x : Clause} {u : List Token} {t : x.Tree}
    (h : x.Derives nearest u t) : x.HasNearest u := by
  induction h with
  | exprStmt h => exact ⟨_, _, .exprStmt h⟩
  | printStmt hkeyword h hend => exact ⟨_, _, .printStmt hkeyword h hend⟩
  | returnStmt hkeyword h hend => exact ⟨_, _, .returnStmt hkeyword h hend⟩
  | blockStmt hleft _ hright ih =>
      obtain ⟨ss, hss⟩ := ih
      exact ⟨_, _, .blockStmt hleft hss hright⟩
  | whileStmt hkeyword hleft hcondition hright _ ih =>
      obtain ⟨_, s, hs⟩ := ih
      exact ⟨_, _, .whileStmt hkeyword hleft hcondition hright hs⟩
  | forStmt hkeyword hleft hinit hcondition hend hincrement hright _ ih =>
      obtain ⟨_, s, hs⟩ := ih
      exact ⟨_, _, .forStmt hkeyword hleft hinit hcondition hend hincrement hright hs⟩
  | ifThen hkeyword hleft hcondition hright _ ih =>
      obtain ⟨_, s, hs⟩ := ih
      exact ⟨_, _, .ifThen hkeyword hleft hcondition hright hs⟩
  | ifElse hkeyword hleft hcondition hright _ _ hother _ ihyes ihno =>
      obtain ⟨inner, yes, hyes⟩ := ihyes
      obtain ⟨_, no, hno⟩ := ihno
      cases inner with
      | false =>
          exact ⟨_, _, .ifElse hkeyword hleft hcondition hright hyes (fun _ => rfl) hother hno⟩
      | true =>
          obtain ⟨_, s, hs⟩ := hyes.takesElse hother hno
          have hif := Clause.Derives.ifThen hkeyword hleft hcondition hright hs
          exact ⟨true, _, by simpa using hif⟩
  | statementDecl _ ih =>
      obtain ⟨_, s, hs⟩ := ih
      exact ⟨s, .statementDecl hs⟩
  | variableDecl h => exact ⟨_, .variableDecl h⟩
  | functionDecl hkeyword _ ih =>
      obtain ⟨d, hd⟩ := ih
      exact ⟨_, .functionDecl hkeyword hd⟩
  | classDecl hkeyword hname hsuperclass hleft _ hright ih =>
      obtain ⟨ds, hds⟩ := ih
      exact ⟨_, .classDecl hkeyword hname hsuperclass hleft hds hright⟩
  | noDeclarations => exact ⟨_, .noDeclarations⟩
  | declarations _ _ ih ihothers =>
      obtain ⟨s, hs⟩ := ih
      obtain ⟨ss, hss⟩ := ihothers
      exact ⟨_, .declarations hs hss⟩
  | function hname hleft hparams hright hopening _ hclosing ih =>
      obtain ⟨body, hbody⟩ := ih
      exact ⟨_, .function hname hleft hparams hright hopening hbody hclosing⟩
  | noMethods => exact ⟨_, .noMethods⟩
  | methods _ _ ih ihothers =>
      obtain ⟨d, hd⟩ := ih
      obtain ⟨ds, hds⟩ := ihothers
      exact ⟨_, .methods hd hds⟩

/-- The rule of the nearest `if` only takes derivations away. -/
theorem Clause.Derives.asWritten {x : Clause} {u : List Token} {t : x.Tree}
    (h : x.Derives true u t) : x.Derives false u t := by
  induction h with
  | exprStmt h => exact .exprStmt h
  | printStmt hkeyword h hend => exact .printStmt hkeyword h hend
  | returnStmt hkeyword h hend => exact .returnStmt hkeyword h hend
  | blockStmt hleft _ hright ih => exact .blockStmt hleft ih hright
  | whileStmt hkeyword hleft hcondition hright _ ih =>
      exact .whileStmt hkeyword hleft hcondition hright ih
  | forStmt hkeyword hleft hinit hcondition hend hincrement hright _ ih =>
      exact .forStmt hkeyword hleft hinit hcondition hend hincrement hright ih
  | ifThen hkeyword hleft hcondition hright _ ih =>
      exact .ifThen hkeyword hleft hcondition hright ih
  | ifElse hkeyword hleft hcondition hright _ _ hother _ ihyes ihno =>
      exact .ifElse hkeyword hleft hcondition hright ihyes (fun h => nomatch h) hother ihno
  | statementDecl _ ih => exact .statementDecl ih
  | variableDecl h => exact .variableDecl h
  | functionDecl hkeyword _ ih => exact .functionDecl hkeyword ih
  | classDecl hkeyword hname hsuperclass hleft _ hright ih =>
      exact .classDecl hkeyword hname hsuperclass hleft ih hright
  | noDeclarations => exact .noDeclarations
  | declarations _ _ ih ihothers => exact .declarations ih ihothers
  | function hname hleft hparams hright hopening _ hclosing ih =>
      exact .function hname hleft hparams hright hopening ih hclosing
  | noMethods => exact .noMethods
  | methods _ _ ih ihothers => exact .methods ih ihothers

end Lox.Grammar
