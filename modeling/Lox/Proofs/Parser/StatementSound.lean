import Lox.Proofs.Grammar.Statement
import Lox.Proofs.Parser.ExpressionSound
import Lox.Tree.Grammar.Statement

/-!
# Statements and programs that are read without faults

The same for the grammar above expressions. A statement that dangles has looked for an `else` behind
it, so none follows: that is why the trees obey the rule of the nearest `if`.
-/

namespace Lox.Parser

open Grammar

theorem takes_expressionStatement : Takes expressionStatement ExpressionStatement := by
  intro ts
  refine reads_bind ((takes_expression ts).mono ?_)
  rintro e rest ⟨u, rfl, hu⟩
  refine reads_bind (reads_expect ?_)
  rintro semicolon rest rfl hend
  exact reads_pure ⟨u ++ [semicolon], by simp, .mk hu hend⟩

theorem takes_unlessAt (kind : Token.Kind) :
    Takes (unlessAt kind) (Optionally Grammar.Expression) := by
  intro ts
  refine reads_bind (reads_sees ?_)
  split
  · exact reads_pure ⟨[], rfl, .absent⟩
  · refine reads_bind ((takes_expression ts).mono ?_)
    rintro e rest ⟨u, rfl, hu⟩
    exact reads_pure ⟨u, rfl, .present hu⟩

theorem takes_variableDeclaration {keyword : Token} (hkeyword : keyword.kind = .varWord)
    (ts : List Token) :
    Reads variableDeclaration ts fun s rest =>
      ∃ u, ts = u ++ rest ∧ VariableDeclaration (keyword :: u) s := by
  refine reads_bind (reads_expect ?_)
  rintro name rest rfl hname
  refine reads_bind (reads_accept? (fun _ => ?_) ?_)
  · refine reads_bind (reads_pure (reads_bind (reads_expect ?_)))
    rintro semicolon rest rfl hend
    exact reads_pure ⟨[name, semicolon], rfl, .plain hkeyword hname hend⟩
  · rintro equal rest rfl hequal
    refine reads_bind (reads_map ((takes_expression rest).mono ?_))
    rintro e rest ⟨u, rfl, hu⟩
    refine reads_bind (reads_expect ?_)
    rintro semicolon rest rfl hend
    refine reads_pure ⟨name :: equal :: u ++ [semicolon], by simp, ?_⟩
    exact .initialized hkeyword hname (by simpa using hequal) hu hend

theorem takes_forInitializer : Takes forInitializer Initializer := by
  intro ts
  refine reads_bind (reads_accept? (fun _ => ?_) ?_)
  · refine reads_map ((takes_expressionStatement ts).mono ?_)
    rintro s rest ⟨u, rfl, hu⟩
    exact ⟨u, rfl, .expressionStmt hu⟩
  · rintro t rest rfl hkind
    dsimp only
    split
    case isTrue hend => exact reads_pure ⟨[t], rfl, .absent hend⟩
    case isFalse hend =>
      have hvar : t.kind = .varWord := by simpa [hend] using hkind
      refine reads_map ((takes_variableDeclaration hvar rest).mono ?_)
      rintro s rest ⟨u, rfl, hu⟩
      exact ⟨t :: u, rfl, .variableDecl hu⟩

theorem forLoop_eq_forTree (init : Option (Stmt Unit)) (condition increment : Option (Expr Unit))
    (body : Stmt Unit) : forLoop init condition increment body =
      forTree init condition increment body := by
  cases init <;> cases condition <;> cases increment <;> rfl

/-- The statement that a list denotes, and that no `else` follows it if it dangles. -/
def StatementBefore (u : List Token) (s : Stmt Unit) (rest : List Token) : Prop :=
  ∃ dangling, Clause.Derives true (.statement dangling) u s ∧
    (dangling = true → Stops [.elseWord] rest)

def TakesStatement (p : Statement) : Prop :=
  ∀ ts, Reads p ts fun s rest => ∃ u, ts = u ++ rest ∧ StatementBefore u s rest

def TakesDeclaration (p : Declaration) : Prop :=
  ∀ ts, Reads p ts fun d rest =>
    ∃ u, ts = u ++ rest ∧ ∃ s, d = some s ∧ Clause.Derives true .declaration u s

theorem statementBefore_of_derives {u : List Token} {s : Stmt Unit} {rest : List Token}
    (h : Clause.Derives true (.statement false) u s) : StatementBefore u s rest :=
  ⟨false, h, fun hdangling => nomatch hdangling⟩

/-! ### Statements by their keywords -/

section Statements

variable {statement : Statement} {declaration : Declaration} {keyword : Token}

theorem reads_printStatement (hkeyword : keyword.kind = .printWord) (ts : List Token) :
    Reads printStatement ts fun s rest =>
      ∃ u, ts = u ++ rest ∧ StatementBefore (keyword :: u) s rest := by
  refine reads_bind ((takes_expression ts).mono ?_)
  rintro e rest ⟨u, rfl, hu⟩
  refine reads_bind (reads_expect ?_)
  rintro semicolon rest rfl hend
  refine reads_pure ⟨u ++ [semicolon], by simp, ?_⟩
  exact statementBefore_of_derives (.printStmt hkeyword hu hend)

theorem reads_returnStatement (hkeyword : keyword.kind = .returnWord) (ts : List Token) :
    Reads (returnStatement keyword) ts fun s rest =>
      ∃ u, ts = u ++ rest ∧ StatementBefore (keyword :: u) s rest := by
  refine reads_bind ((takes_unlessAt .semicolon ts).mono ?_)
  rintro value rest ⟨u, rfl, hu⟩
  refine reads_bind (reads_expect ?_)
  rintro semicolon rest rfl hend
  refine reads_pure ⟨u ++ [semicolon], by simp, ?_⟩
  exact statementBefore_of_derives (.returnStmt hkeyword hu hend)

theorem reads_whileStatement (hstatement : TakesStatement statement)
    (hkeyword : keyword.kind = .whileWord) (ts : List Token) :
    Reads (whileStatement statement) ts fun s rest =>
      ∃ u, ts = u ++ rest ∧ StatementBefore (keyword :: u) s rest := by
  refine reads_bind (reads_expect ?_)
  rintro left rest rfl hleft
  refine reads_bind ((takes_expression rest).mono ?_)
  rintro condition rest ⟨u, rfl, hu⟩
  refine reads_bind (reads_expect ?_)
  rintro right rest rfl hright
  refine reads_bind ((hstatement rest).mono ?_)
  rintro body rest ⟨w, rfl, dangling, hw, hdangling⟩
  refine reads_pure ⟨left :: u ++ right :: w, by simp, dangling, ?_, hdangling⟩
  exact .whileStmt hkeyword hleft hu hright hw

theorem reads_ifStatement (hstatement : TakesStatement statement)
    (hkeyword : keyword.kind = .ifWord) (ts : List Token) :
    Reads (ifStatement statement) ts fun s rest =>
      ∃ u, ts = u ++ rest ∧ StatementBefore (keyword :: u) s rest := by
  refine reads_bind (reads_expect ?_)
  rintro left rest rfl hleft
  refine reads_bind ((takes_expression rest).mono ?_)
  rintro condition rest ⟨u, rfl, hu⟩
  refine reads_bind (reads_expect ?_)
  rintro right rest rfl hright
  refine reads_bind ((hstatement rest).mono ?_)
  rintro yes rest ⟨w, rfl, inner, hw, hinner⟩
  refine reads_bind (reads_accept? (fun hstop => ?_) ?_)
  · refine reads_pure ⟨left :: u ++ right :: w, by simp, true, ?_, fun _ => hstop⟩
    exact .ifThen hkeyword hleft hu hright hw
  · rintro other rest rfl hother
    refine reads_bind ((hstatement rest).mono ?_)
    rintro no rest ⟨x, rfl, dangling, hx, hdangling⟩
    -- A dangling first branch would have taken this `else`.
    have hclosed : inner = false := by
      cases inner with
      | false => rfl
      | true => exact absurd hother (hinner rfl other _ rfl)
    refine reads_pure ⟨left :: u ++ right :: w ++ other :: x, by simp, dangling, ?_, hdangling⟩
    exact .ifElse hkeyword hleft hu hright hw (fun _ => hclosed) (by simpa using hother) hx

theorem reads_forStatement (hstatement : TakesStatement statement)
    (hkeyword : keyword.kind = .forWord) (ts : List Token) :
    Reads (forStatement statement) ts fun s rest =>
      ∃ u, ts = u ++ rest ∧ StatementBefore (keyword :: u) s rest := by
  refine reads_bind (reads_expect ?_)
  rintro left rest rfl hleft
  refine reads_bind ((takes_forInitializer rest).mono ?_)
  rintro init rest ⟨u, rfl, hu⟩
  refine reads_bind ((takes_unlessAt .semicolon rest).mono ?_)
  rintro condition rest ⟨v, rfl, hv⟩
  refine reads_bind (reads_expect ?_)
  rintro semicolon rest rfl hend
  refine reads_bind ((takes_unlessAt .rightParen rest).mono ?_)
  rintro increment rest ⟨w, rfl, hw⟩
  refine reads_bind (reads_expect ?_)
  rintro right rest rfl hright
  refine reads_bind ((hstatement rest).mono ?_)
  rintro body rest ⟨x, rfl, dangling, hx, hdangling⟩
  refine reads_pure ⟨left :: u ++ v ++ semicolon :: w ++ right :: x, by simp, dangling, ?_,
    hdangling⟩
  rw [forLoop_eq_forTree]
  exact .forStmt hkeyword hleft hu hv hend hw hright hx

/-! ### Blocks, functions and classes -/

theorem reads_declarations (hdeclaration : TakesDeclaration declaration) (n : Nat) :
    Takes (declarations declaration n) (Clause.Derives true .declarations) := by
  induction n with
  | zero => exact fun ts => reads_pure ⟨[], rfl, .noDeclarations⟩
  | succ n ih =>
      intro ts
      cases ts with
      | nil => exact fun _ => ⟨[], [], rfl, [], rfl, .noDeclarations⟩
      | cons t ts =>
          unfold Reads declarations
          dsimp only
          split
          · exact fun _ => ⟨[], t :: ts, rfl, [], rfl, .noDeclarations⟩
          · refine reads_bind ((hdeclaration (t :: ts)).mono ?_)
            rintro d rest ⟨u, hts, s, rfl, hu⟩
            refine reads_bind ((ih rest).mono ?_)
            rintro ss rest ⟨w, rfl, hw⟩
            exact reads_pure ⟨u ++ w, by simpa using hts, .declarations hu hw⟩

theorem reads_block (hdeclaration : TakesDeclaration declaration) (ts : List Token) :
    Reads (block declaration) ts fun body rest =>
      ∃ u right, ts = u ++ right :: rest ∧ Clause.Derives true .declarations u body ∧
        right.kind = .rightBrace := by
  refine reads_bind (reads_bounded fun n => (reads_declarations hdeclaration n ts).mono ?_)
  rintro body rest ⟨u, rfl, hu⟩
  refine reads_bind (reads_expect ?_)
  rintro right rest rfl hright
  exact reads_pure ⟨u, right, rfl, hu, hright⟩

theorem takes_parameter (cause : SyntaxError.Cause) :
    Takes (expect .identifier cause) Parameter := by
  intro ts
  refine reads_expect ?_
  rintro name rest rfl hname
  exact ⟨[name], rfl, rfl, hname⟩

theorem parameters_of_listed {u params : List Token} {right : Token}
    (h : Listed Parameter u (params, right)) :
    ∃ w, u = w ++ [right] ∧ Parameters w params ∧ right.kind = .rightParen := by
  cases h with
  | nothing hright => exact ⟨[], rfl, .absent, hright⟩
  | items h hlimit hright => exact ⟨_, rfl, .present h hlimit, hright⟩

theorem takes_functionDecl (hdeclaration : TakesDeclaration declaration) (role : FunctionRole) :
    Takes (functionDecl declaration role) (Clause.Derives true .function) := by
  intro ts
  refine reads_bind (reads_expect ?_)
  rintro name rest rfl hname
  refine reads_bind (reads_expect ?_)
  rintro left rest rfl hleft
  refine reads_bind ((takes_parenthesized (takes_parameter _) _ _ rest).mono ?_)
  rintro ⟨params, right⟩ rest ⟨u, rfl, hu⟩
  obtain ⟨v, rfl, hparams, hright⟩ := parameters_of_listed hu
  refine reads_bind (reads_expect ?_)
  rintro opening rest rfl hopening
  refine reads_bind ((reads_block hdeclaration rest).mono ?_)
  rintro body rest ⟨w, closing, rfl, hw, hclosing⟩
  refine reads_pure ⟨name :: left :: v ++ right :: opening :: w ++ [closing], by simp, ?_⟩
  exact .function hname hleft hparams hright hopening hw hclosing

theorem reads_methods (hdeclaration : TakesDeclaration declaration) (n : Nat) :
    Takes (methods declaration n) (Clause.Derives true .methods) := by
  induction n with
  | zero => exact fun ts => reads_pure ⟨[], rfl, .noMethods⟩
  | succ n ih =>
      intro ts
      cases ts with
      | nil => exact fun _ => ⟨[], [], rfl, [], rfl, .noMethods⟩
      | cons t ts =>
          unfold Reads methods
          dsimp only
          split
          · exact fun _ => ⟨[], t :: ts, rfl, [], rfl, .noMethods⟩
          · refine reads_bind ((takes_functionDecl hdeclaration .method (t :: ts)).mono ?_)
            rintro d rest ⟨u, hts, hu⟩
            refine reads_bind ((ih rest).mono ?_)
            rintro ds rest ⟨w, rfl, hw⟩
            exact reads_pure ⟨u ++ w, by simpa using hts, .methods hu hw⟩

theorem takes_superclassClause : Takes superclassClause Superclass := by
  intro ts
  refine reads_bind (reads_accept? (fun _ => reads_pure ⟨[], rfl, .absent⟩) ?_)
  rintro less rest rfl hless
  refine reads_bind (reads_expect ?_)
  rintro name rest rfl hname
  exact reads_pure ⟨[less, name], rfl, .present (by simpa using hless) hname⟩

theorem reads_classDeclaration (hdeclaration : TakesDeclaration declaration)
    (hkeyword : keyword.kind = .classWord) (ts : List Token) :
    Reads (classDeclaration declaration) ts fun s rest =>
      ∃ u, ts = u ++ rest ∧ Clause.Derives true .declaration (keyword :: u) s := by
  refine reads_bind (reads_expect ?_)
  rintro name rest rfl hname
  refine reads_bind ((takes_superclassClause rest).mono ?_)
  rintro superclass rest ⟨u, rfl, hu⟩
  refine reads_bind (reads_expect ?_)
  rintro left rest rfl hleft
  refine reads_bind (reads_bounded fun n => (reads_methods hdeclaration n rest).mono ?_)
  rintro ds rest ⟨w, rfl, hw⟩
  refine reads_bind (reads_expect ?_)
  rintro right rest rfl hright
  refine reads_pure ⟨name :: u ++ left :: w ++ [right], by simp, ?_⟩
  exact .classDecl hkeyword hname hu hleft hw hright

theorem statementWith_eq (declaration : Declaration) (statement : Statement) (t : Token)
    (ts : List Token) :
    statementWith declaration statement (t :: ts) =
      match t.kind with
      | .forWord => forStatement statement ts
      | .ifWord => ifStatement statement ts
      | .printWord => printStatement ts
      | .returnWord => returnStatement t ts
      | .whileWord => whileStatement statement ts
      | .leftBrace => (Stmt.block <$> block declaration) ts
      | _ => expressionStatement (t :: ts) := rfl

theorem declarationWith_eq (declaration : Declaration) (statement : Statement) (t : Token)
    (ts : List Token) :
    declarationWith declaration statement (t :: ts) =
      match t.kind with
      | .classWord => classDeclaration declaration ts
      | .funWord => (Stmt.function <$> functionDecl declaration .function) ts
      | .varWord => variableDeclaration ts
      | _ => statementWith declaration statement (t :: ts) := rfl

theorem takes_statementWith (hdeclaration : TakesDeclaration declaration)
    (hstatement : TakesStatement statement) :
    TakesStatement (statementWith declaration statement) := by
  have hexpression (ts : List Token) : Reads expressionStatement ts fun s rest =>
      ∃ u, ts = u ++ rest ∧ StatementBefore u s rest := by
    refine (takes_expressionStatement ts).mono ?_
    rintro s rest ⟨u, rfl, hu⟩
    exact ⟨u, rfl, statementBefore_of_derives (.exprStmt hu)⟩
  intro ts
  cases ts with
  | nil => exact Reads.congr rfl (hexpression [])
  | cons t ts =>
      have heq := statementWith_eq declaration statement t ts
      split at heq
      case h_1 hkind => exact Reads.cons heq (reads_forStatement hstatement hkind ts)
      case h_2 hkind => exact Reads.cons heq (reads_ifStatement hstatement hkind ts)
      case h_3 hkind => exact Reads.cons heq (reads_printStatement hkind ts)
      case h_4 hkind => exact Reads.cons heq (reads_returnStatement hkind ts)
      case h_5 hkind => exact Reads.cons heq (reads_whileStatement hstatement hkind ts)
      case h_6 hkind =>
        refine Reads.cons heq (reads_map ((reads_block hdeclaration ts).mono ?_))
        rintro body rest ⟨u, right, rfl, hu, hright⟩
        refine ⟨u ++ [right], by simp, ?_⟩
        exact statementBefore_of_derives (.blockStmt hkind hu hright)
      case h_7 => exact Reads.congr heq (hexpression (t :: ts))

theorem reads_declarationWith (hdeclaration : TakesDeclaration declaration)
    (hstatement : TakesStatement statement) :
    Takes (declarationWith declaration statement) (Clause.Derives true .declaration) := by
  have hother (ts : List Token) : Reads (statementWith declaration statement) ts fun s rest =>
      ∃ u, ts = u ++ rest ∧ Clause.Derives true .declaration u s := by
    refine (takes_statementWith hdeclaration hstatement ts).mono ?_
    rintro s rest ⟨u, rfl, dangling, hu, -⟩
    exact ⟨u, rfl, .statementDecl hu⟩
  intro ts
  cases ts with
  | nil => exact Reads.congr rfl (hother [])
  | cons t ts =>
      have heq := declarationWith_eq declaration statement t ts
      split at heq
      case h_1 hkind => exact Reads.cons heq (reads_classDeclaration hdeclaration hkind ts)
      case h_2 hkind =>
        refine Reads.cons heq (reads_map ((takes_functionDecl hdeclaration .function ts).mono ?_))
        rintro d rest ⟨u, rfl, hu⟩
        exact ⟨u, rfl, .functionDecl hkind hu⟩
      case h_3 hkind =>
        refine Reads.cons heq ((takes_variableDeclaration hkind ts).mono ?_)
        rintro s rest ⟨u, rfl, hu⟩
        exact ⟨u, rfl, .variableDecl hu⟩
      case h_4 => exact Reads.congr heq (hother (t :: ts))

end Statements

/-! ### The knot -/

theorem takesDeclaration_recovering {p : Statement}
    (h : Takes p (Clause.Derives true .declaration)) : TakesDeclaration (recovering p) := by
  intro ts
  refine reads_recovering ((h ts).mono ?_)
  rintro s rest ⟨u, rfl, hu⟩
  exact ⟨u, rfl, s, rfl, hu⟩

theorem takes_nested (n : Nat) :
    TakesStatement (statementIn n) ∧ TakesDeclaration (declarationIn n) := by
  induction n with
  | zero =>
      refine ⟨fun ts => ?_, fun ts => ?_⟩
      · rw [statementIn]
        exact reads_fail
      · rw [declarationIn]
        exact reads_recovering reads_fail
  | succ n ih =>
      refine ⟨?_, ?_⟩
      · rw [statementIn]
        exact takes_statementWith ih.2 ih.1
      · rw [declarationIn]
        exact takesDeclaration_recovering (reads_declarationWith ih.2 ih.1)

theorem takes_declaration : TakesDeclaration declaration :=
  fun ts => Reads.congr (q := declarationIn (ts.length + 1)) rfl
    ((takes_nested (ts.length + 1)).2 ts)

/-- With a round for each token a program is read to its end, as no declaration is empty. -/
theorem reads_program (n : Nat) (ts : List Token) (hn : ts.length ≤ n) :
    Reads (program n) ts fun ss rest => rest = [] ∧ NearestProgram ts ss := by
  induction n generalizing ts with
  | zero =>
      obtain rfl : ts = [] := List.eq_nil_of_length_eq_zero (Nat.le_zero.mp hn)
      exact reads_pure ⟨rfl, .noDeclarations⟩
  | succ n ih =>
      cases ts with
      | nil => exact fun _ => ⟨[], [], rfl, rfl, .noDeclarations⟩
      | cons t ts =>
          refine reads_bind ((takes_declaration (t :: ts)).mono ?_)
          rintro d rest ⟨u, hts, s, rfl, hu⟩
          obtain ⟨first, others, rfl, -⟩ := hu.begins
          have hlength : rest.length ≤ n := by
            have hlen := congrArg List.length hts
            simp only [List.length_cons, List.length_append] at hlen hn
            omega
          refine reads_bind ((ih rest hlength).mono ?_)
          rintro ss rest' ⟨rfl, hss⟩
          refine reads_pure ⟨rfl, ?_⟩
          rw [hts]
          exact .declarations hu hss

end Lox.Parser
