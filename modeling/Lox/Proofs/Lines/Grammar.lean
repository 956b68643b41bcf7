import Lox.Proofs.Lines.Tree
import Lox.Proofs.Parser.Accepts

/-!
# The grammar on other lines

Rules of the grammar name kinds of tokens only. So tokens on other lines denote the same tree on
those lines, and a program may stand behind another one.
-/

namespace Lox.Grammar

variable (g : Int → Int)

theorem Chain.node_renumber (c : Chain) (l : Expr Unit) (t : Token) (r : Expr Unit) :
    (c.node l t r).renumber g = c.node (l.renumber g) (t.renumber g) (r.renumber g) := by
  cases c <;> rfl

def Phrase.renumber : (x : Phrase) → x.Tree → x.Tree
  | .level _ => Expr.renumber g
  | .arguments => Expr.renumberAll g

theorem Phrase.Derives.renumber {x : Phrase} {u : List Token} {e : x.Tree} (h : x.Derives u e) :
    x.Derives (u.map (Token.renumber g)) (x.renumber g e) := by
  induction h with
  | assignName hname hequal _ ih => exact .assignName hname hequal ih
  | assignField _ hdot hname hequal _ ihobject ihvalue =>
      rw [List.map_append]
      exact .assignField ihobject hdot hname hequal ihvalue
  | noAssignment _ ih => exact .noAssignment ih
  | operator _ hoperator _ ihleft ihright =>
      rw [List.map_append]
      simp only [Phrase.renumber, Chain.node_renumber]
      exact .operator ihleft hoperator ihright
  | operand _ ih => exact .operand ih
  | unary hoperator _ ih => exact .unary hoperator ih
  | noUnary _ ih => exact .noUnary ih
  | callNothing _ hleft hright ih =>
      rw [List.map_append]
      exact .callNothing ih hleft hright
  | callWith _ hleft _ hlimit hright ihcallee iharguments =>
      rw [List.map_append, List.map_append]
      refine .callWith ihcallee hleft iharguments ?_ hright
      exact Nat.le_trans (Nat.le_of_eq (Expr.length_renumberAll g _)) hlimit
  | get _ hdot hname ih =>
      rw [List.map_append]
      exact .get ih hdot hname
  | noCall _ ih => exact .noCall ih
  | falseWord h => exact .falseWord h
  | trueWord h => exact .trueWord h
  | nilWord h => exact .nilWord h
  | this h => exact .this h
  | literal h => exact .literal h
  | name h => exact .name h
  | group hleft _ hright ih =>
      rw [List.map_append]
      exact .group hleft ih hright
  | super hkeyword hdot hmethod => exact .super hkeyword hdot hmethod
  | argument _ ih => exact .argument ih
  | arguments _ hcomma _ ih ihothers =>
      rw [List.map_append]
      exact .arguments ih hcomma ihothers

theorem Expression.renumber {u : List Token} {e : Expr Unit} (h : Expression u e) :
    Expression (u.map (Token.renumber g)) (e.renumber g) :=
  Phrase.Derives.renumber g h

/-! ### Parts of statements -/

theorem Optionally.renumber {u : List Token} {e : Option (Expr Unit)}
    (h : Optionally Expression u e) :
    Optionally Expression (u.map (Token.renumber g)) (e.map (Expr.renumber g)) := by
  cases h with
  | absent => exact .absent
  | present h => exact .present (Expression.renumber g h)

theorem ExpressionStatement.renumber {u : List Token} {s : Stmt Unit}
    (h : ExpressionStatement u s) :
    ExpressionStatement (u.map (Token.renumber g)) (s.renumber g) := by
  obtain ⟨h, hend⟩ := h
  rw [List.map_append]
  exact .mk (Expression.renumber g h) hend

theorem VariableDeclaration.renumber {u : List Token} {s : Stmt Unit}
    (h : VariableDeclaration u s) :
    VariableDeclaration (u.map (Token.renumber g)) (s.renumber g) := by
  cases h with
  | plain hkeyword hname hend => exact .plain hkeyword hname hend
  | initialized hkeyword hname hequal h hend =>
      rw [List.map_append]
      exact .initialized hkeyword hname hequal (Expression.renumber g h) hend

theorem Initializer.renumber {u : List Token} {s : Option (Stmt Unit)} (h : Initializer u s) :
    Initializer (u.map (Token.renumber g)) (s.map (Stmt.renumber g)) := by
  cases h with
  | absent hend => exact .absent hend
  | variableDecl h => exact .variableDecl (h.renumber g)
  | expressionStmt h => exact .expressionStmt (h.renumber g)

theorem Superclass.renumber {u : List Token} {base : Option (Token × Unit)}
    (h : Superclass u base) :
    Superclass (u.map (Token.renumber g)) (base.map (renumberBase g)) := by
  cases h with
  | absent => exact .absent
  | present hless hname => exact .present hless hname

theorem Separated.renumber_parameters {u names : List Token} (h : Separated Parameter u names) :
    Separated Parameter (u.map (Token.renumber g)) (names.map (Token.renumber g)) := by
  have hone {u : List Token} {name : Token} (h : Parameter u name) :
      Parameter (u.map (Token.renumber g)) (name.renumber g) := by
    obtain ⟨rfl, hname⟩ := h
    exact ⟨rfl, hname⟩
  induction h with
  | one h => exact .one (hone h)
  | more h hcomma _ ih =>
      rw [List.map_append]
      exact .more (hone h) hcomma ih

theorem Parameters.renumber {u names : List Token} (h : Parameters u names) :
    Parameters (u.map (Token.renumber g)) (names.map (Token.renumber g)) := by
  cases h with
  | absent => exact .absent
  | present h hlimit => exact .present (h.renumber_parameters g) (by rwa [List.length_map])

theorem forTree_renumber (init : Option (Stmt Unit)) (condition increment : Option (Expr Unit))
    (body : Stmt Unit) :
    (forTree init condition increment body).renumber g =
      forTree (init.map (Stmt.renumber g)) (condition.map (Expr.renumber g))
        (increment.map (Expr.renumber g)) (body.renumber g) := by
  cases init <;> cases condition <;> cases increment <;> rfl

/-! ### Statements and declarations -/

def Clause.renumber : (x : Clause) → x.Tree → x.Tree
  | .statement _ => Stmt.renumber g
  | .declaration => Stmt.renumber g
  | .declarations => Stmt.renumberAll g
  | .function => FunctionDecl.renumber g
  | .methods => FunctionDecl.renumberAll g

theorem Clause.Derives.renumber {nearest : Bool} {x : Clause} {u : List Token} {s : x.Tree}
    (h : x.Derives nearest u s) :
    x.Derives nearest (u.map (Token.renumber g)) (x.renumber g s) := by
  induction h with
  | exprStmt h => exact .exprStmt (h.renumber g)
  | printStmt hkeyword h hend =>
      rw [List.map_append]
      exact .printStmt hkeyword (Expression.renumber g h) hend
  | returnStmt hkeyword h hend =>
      rw [List.map_append]
      exact .returnStmt hkeyword (h.renumber g) hend
  | blockStmt hleft _ hright ih =>
      rw [List.map_append]
      exact .blockStmt hleft ih hright
  | whileStmt hkeyword hleft hcondition hright _ ih =>
      rw [List.map_append]
      exact .whileStmt hkeyword hleft (Expression.renumber g hcondition) hright ih
  | forStmt hkeyword hleft hinit hcondition hend hincrement hright _ ih =>
      simp only [List.map_append, List.map_cons, Clause.renumber, forTree_renumber]
      exact .forStmt hkeyword hleft (hinit.renumber g) (hcondition.renumber g) hend
        (hincrement.renumber g) hright ih
  | ifThen hkeyword hleft hcondition hright _ ih =>
      rw [List.map_append]
      exact .ifThen hkeyword hleft (Expression.renumber g hcondition) hright ih
  | ifElse hkeyword hleft hcondition hright _ hnearest hother _ ihyes ihno =>
      rw [List.map_append, List.map_append]
      exact .ifElse hkeyword hleft (Expression.renumber g hcondition) hright ihyes hnearest hother
        ihno
  | statementDecl _ ih => exact .statementDecl ih
  | variableDecl h => exact .variableDecl (h.renumber g)
  | functionDecl hkeyword _ ih => exact .functionDecl hkeyword ih
  | classDecl hkeyword hname hsuperclass hleft _ hright ih =>
      rw [List.map_append, List.map_append]
      exact .classDecl hkeyword hname (hsuperclass.renumber g) hleft ih hright
  | noDeclarations => exact .noDeclarations
  | declarations _ _ ih ihothers =>
      rw [List.map_append]
      exact .declarations ih ihothers
  | function hname hleft hparams hright hopening _ hclosing ih =>
      rw [List.map_append, List.map_append]
      exact .function hname hleft (hparams.renumber g) hright hopening ih hclosing
  | noMethods => exact .noMethods
  | methods _ _ ih ihothers =>
      rw [List.map_append]
      exact .methods ih ihothers

theorem NearestProgram.append {u w : List Token} {p q : List (Stmt Unit)} (hp : NearestProgram u p)
    (hq : NearestProgram w q) : NearestProgram (u ++ w) (p ++ q) := by
  induction p generalizing u with
  | nil =>
      cases hp
      exact hq
  | cons s ss ih =>
      cases hp with
      | declarations h hothers =>
          rw [List.append_assoc]
          exact .declarations h (ih hothers)

end Lox.Grammar

namespace Lox

open Grammar

theorem Parsed.ofTokens_renumber (g : Int → Int) {u : List Token}
    (h : (Parsed.ofTokens u).errors = []) :
    Parsed.ofTokens (u.map (Token.renumber g)) =
      ⟨Stmt.renumberAll g (Parsed.ofTokens u).program, []⟩ :=
  ofTokens_of_derives ((derives_of_errors_eq_nil h).2.renumber g)

theorem Parsed.ofTokens_append {u w : List Token} (hu : (Parsed.ofTokens u).errors = [])
    (hw : (Parsed.ofTokens w).errors = []) :
    Parsed.ofTokens (u ++ w) =
      ⟨(Parsed.ofTokens u).program ++ (Parsed.ofTokens w).program, []⟩ :=
  ofTokens_of_derives
    (NearestProgram.append (derives_of_errors_eq_nil hu).2 (derives_of_errors_eq_nil hw).2)

end Lox
