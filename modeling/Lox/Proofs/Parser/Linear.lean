import Mathlib.Algebra.Order.Group.Multiset
import Mathlib.Tactic.Abel
import Lox.Proofs.Parser.Moves
import Lox.Tree.Uses

/-!
# No token is used twice

A tree refers to the tokens that name variables in it. Parsers are linear in these: a token that is
read goes into the tree at most once, whether the tokens have faults or not, so no two places of a
tree are made out of one token.
-/

namespace Lox

variable {α β : Type}

/-- The tokens in a result and those that are left make up no more than the given ones. -/
def Parse.Spends (given : Multiset Token) (spent : α → Multiset Token) : Parse α → Prop
  | .ok a rest _ => spent a + (rest : Multiset Token) ≤ given
  | .failed rest _ => (rest : Multiset Token) ≤ given

theorem Parse.Spends.mono {given more : Multiset Token} {spent : α → Multiset Token} {r : Parse α}
    (h : r.Spends given spent) (hle : given ≤ more) : r.Spends more spent := by
  cases r with
  | ok a rest errors => exact le_trans h hle
  | failed rest errors => exact le_trans h hle

theorem Parse.Spends.after {given : Multiset Token} {spent : α → Multiset Token} {r : Parse α}
    (h : r.Spends given spent) (errors : List SyntaxError) : (r.after errors).Spends given spent := by
  cases r with
  | ok a rest more => exact h
  | failed rest more => exact h

namespace Parser

/-- With tokens at hand that were read before, the parser puts each of them and each of its input
into its result at most once. -/
def Linear (held : Multiset Token) (spent : α → Multiset Token) (p : Parser α) : Prop :=
  ∀ ts : List Token, (p ts).Spends (held + ts) spent

/-! ### Combinators -/

section Combinators

variable {held more : Multiset Token} {spent : α → Multiset Token} {used : β → Multiset Token}

theorem Linear.mono {p : Parser α} (h : Linear held spent p) (hle : held ≤ more) :
    Linear more spent p :=
  fun ts => (h ts).mono (add_le_add hle le_rfl)

theorem Linear.bind {p : Parser α} {f : α → Parser β} (hp : Linear 0 spent p)
    (hf : ∀ a, Linear (held + spent a) used (f a)) : Linear held used (p >>= f) := by
  intro ts
  have hspent := hp ts
  rw [zero_add] at hspent
  rw [bind_apply]
  cases hrun : p ts with
  | failed rest errors =>
      rw [hrun] at hspent
      exact le_trans hspent (Multiset.le_add_left _ _)
  | ok a rest errors =>
      rw [hrun] at hspent
      refine ((hf a rest).mono ?_).after errors
      rw [add_assoc]
      exact add_le_add le_rfl hspent

theorem linear_pure {a : α} (h : spent a ≤ held) : Linear held spent (pure a) :=
  fun _ => add_le_add h le_rfl

theorem Linear.map {p : Parser α} {f : α → β} (h : Linear 0 spent p)
    (hf : ∀ a, used (f a) ≤ spent a) : Linear 0 used (f <$> p) :=
  h.bind fun a => linear_pure ((hf a).trans (Multiset.le_add_left _ _))

theorem linear_fail (cause : SyntaxError.Cause) : Linear held spent (fail cause : Parser α) :=
  fun _ => Multiset.le_add_left _ _

theorem linear_report (left : List Token) (cause : SyntaxError.Cause) :
    Linear 0 (fun _ => 0) (report left cause) :=
  fun _ => le_rfl

theorem linear_here : Linear 0 (fun _ => 0) here :=
  fun _ => le_rfl

theorem linear_sees (kind : Token.Kind) : Linear 0 (fun _ => 0) (sees kind) :=
  fun _ => le_rfl

/-- The token that is taken need not be kept. -/
theorem linear_accept? (kinds : List Token.Kind) : Linear 0 (fun _ => 0) (accept? kinds) := by
  intro ts
  cases ts with
  | nil => exact le_rfl
  | cons t ts =>
      rw [accept?]
      split
      · simp only [Parse.Spends, zero_add]
        exact Multiset.le_cons_self _ t
      · exact le_rfl

theorem linear_expect (kind : Token.Kind) (cause : SyntaxError.Cause) :
    Linear 0 (fun t => {t}) (expect kind cause) := by
  intro ts
  cases ts with
  | nil => exact le_rfl
  | cons t ts =>
      rw [expect]
      split
      · simp [Parse.Spends]
      · exact linear_fail cause _

theorem linear_skip (kind : Token.Kind) (cause : SyntaxError.Cause) :
    Linear 0 (fun _ => 0) (expect kind cause) := by
  intro ts
  have htaken := linear_expect kind cause ts
  cases hrun : expect kind cause ts with
  | failed rest errors =>
      rw [hrun] at htaken
      exact htaken
  | ok t rest errors =>
      rw [hrun] at htaken
      exact le_trans (add_le_add (Multiset.zero_le _) le_rfl) htaken

theorem Linear.bounded {p : Nat → Parser α} (h : ∀ n, Linear held spent (p n)) :
    Linear held spent (bounded p) :=
  fun ts => h ts.length ts

theorem spends_tail {t : Token} {p : Parser α} (h : Linear {t} spent p) (ts : List Token) :
    (p ts).Spends (0 + ((t :: ts : List Token) : Multiset Token)) spent := by
  refine (h ts).mono (le_of_eq ?_)
  rw [Multiset.singleton_add, Multiset.cons_coe, zero_add]

/-- The tokens in the items of a list. -/
def eachOf (spent : α → Multiset Token) (items : List α) : Multiset Token :=
  (items.map spent).sum

theorem linear_listFrom {item : Parser α} (hitem : Linear 0 spent item)
    (excess : SyntaxError.Cause) (count n : Nat) :
    Linear 0 (eachOf spent) (listFrom item excess count n) := by
  induction n generalizing count with
  | zero =>
      have hlast : Linear 0 (eachOf spent) (item >>= fun a => pure [a]) :=
        hitem.bind fun a => linear_pure (by simp [eachOf])
      rw [listFrom]
      split
      · refine linear_here.bind fun left => (linear_report left excess).bind fun _ => ?_
        exact hlast.mono (Multiset.zero_le _)
      · exact hlast
  | succ n ih =>
      rw [listFrom]
      split
      case' isTrue =>
        refine linear_here.bind fun left => (linear_report left excess).bind fun _ => ?_
        refine Linear.mono ?_ (Multiset.zero_le _)
      all_goals
        refine hitem.bind fun a => (linear_accept? [.comma]).bind fun comma => ?_
        cases comma with
        | some _ => exact (ih (count + 1)).bind fun as => linear_pure (by simp [eachOf])
        | none => exact linear_pure (by simp [eachOf])

theorem linear_parenthesized {item : Parser α} (hitem : Linear 0 spent item)
    (excess unclosed : SyntaxError.Cause) :
    Linear 0 (fun listed => eachOf spent listed.1) (parenthesized item excess unclosed) := by
  have hclosed (items : List α) : Linear (0 + 0 + eachOf spent items)
      (fun listed : List α × Token => eachOf spent listed.1)
      (expect .rightParen unclosed >>= fun paren => pure (items, paren)) :=
    (linear_skip .rightParen unclosed).bind fun paren => linear_pure (by simp)
  have hnone : Linear 0 (eachOf spent) (pure []) := linear_pure (Multiset.zero_le _)
  refine (linear_sees .rightParen).bind fun closed => ?_
  split
  · exact hnone.bind hclosed
  · exact (Linear.bounded fun n => linear_listFrom hitem excess 0 n).bind hclosed

/-- Recovery only drops tokens. -/
theorem Linear.recovering {p : Parser α} (h : Linear 0 spent p) :
    Linear 0 (fun found => found.elim 0 spent) (recovering p) := by
  intro ts
  have hspent := h ts
  unfold Parser.recovering
  cases hrun : p ts with
  | ok a rest errors =>
      rw [hrun] at hspent
      exact hspent
  | failed rest errors =>
      rw [hrun] at hspent
      have hresume : resume rest <:+ rest := (resume_suffix_tail rest).trans (List.tail_suffix rest)
      have hle : (resume rest : Multiset Token) ≤ rest :=
        Multiset.coe_le.mpr hresume.sublist.subperm
      exact le_trans (by simpa using hle) hspent

end Combinators

/-! ### Expressions -/

/-- The tokens at the places of a tree. -/
def placed (uses : List (Use Unit)) : Multiset Token :=
  (uses.map Use.token : List Token)

@[simp]
theorem placed_nil : placed [] = 0 := rfl

@[simp]
theorem placed_cons (u : Use Unit) (uses : List (Use Unit)) :
    placed (u :: uses) = {u.token} + placed uses := rfl

@[simp]
theorem placed_append (uses more : List (Use Unit)) :
    placed (uses ++ more) = placed uses + placed more := by
  simp [placed]

theorem placed_usesAll (es : List (Expr Unit)) :
    placed (Expr.usesAll es) = eachOf (fun e => placed e.uses) es := by
  induction es with
  | nil => rfl
  | cons e es ih =>
      rw [Expr.usesAll, placed_append, ih]
      rfl

/-- The parser of an expression is linear. -/
abbrev LinearExpr (held : Multiset Token) (p : Expression) : Prop :=
  Linear held (fun e => placed e.uses) p

attribute [local simp] Expr.uses Expr.usesAll Expr.usesOf Stmt.uses Stmt.usesAll
  FunctionDecl.uses FunctionDecl.usesAll

section Expressions

variable {expression : Expression}

theorem linear_superMethod (keyword : Token) : LinearExpr {keyword} (superMethod keyword) :=
  (linear_skip .dot _).bind fun _ => (linear_skip .identifier _).bind fun _ =>
    linear_pure (by simp)

theorem linear_group (h : LinearExpr 0 expression) : LinearExpr 0 (group expression) :=
  h.bind fun _ => (linear_skip .rightParen _).bind fun _ => linear_pure (by simp)

theorem linear_primary (h : LinearExpr 0 expression) : LinearExpr 0 (primary expression) := by
  intro ts
  cases ts with
  | nil => exact linear_fail .expression []
  | cons t ts =>
      have htaken {e : Expr Unit} (he : placed e.uses ≤ {t}) :
          Parse.Spends (0 + ((t :: ts : List Token) : Multiset Token)) (fun e => placed e.uses)
            (.ok e ts []) :=
        spends_tail (linear_pure he) ts
      unfold primary
      dsimp only
      split
      case h_6 => exact spends_tail (linear_superMethod t) ts
      case h_9 => exact spends_tail ((linear_group h).mono (Multiset.zero_le _)) ts
      case h_10 => exact linear_fail .expression (t :: ts)
      all_goals exact htaken (by simp)

theorem linear_suffixes (h : LinearExpr 0 expression) (n : Nat) (e : Expr Unit) :
    LinearExpr (placed e.uses) (suffixes expression n e) := by
  induction n generalizing e with
  | zero => exact linear_pure le_rfl
  | succ n ih =>
      refine (linear_accept? [.leftParen, .dot]).bind fun found => ?_
      cases found with
      | none => exact linear_pure (by simp)
      | some t =>
          dsimp only
          split
          · exact (linear_skip .identifier _).bind fun name => (ih _).mono (by simp)
          · refine (linear_parenthesized h _ _).bind fun listed => (ih _).mono ?_
            simp [placed_usesAll]

theorem linear_call (h : LinearExpr 0 expression) : LinearExpr 0 (call expression) :=
  (linear_primary h).bind fun e => .bounded fun n => (linear_suffixes h n e).mono (by simp)

theorem linear_unary (h : LinearExpr 0 expression) : LinearExpr 0 (unary expression) := by
  intro ts
  have huses (operators : List Token) (e : Expr Unit) :
      (operators.foldr Expr.unary e).uses = e.uses := by
    induction operators with
    | nil => rfl
    | cons t operators ih => exact ih
  have hdrop : (ts.dropWhile isUnary : Multiset Token) ≤ ts :=
    Multiset.coe_le.mpr (List.dropWhile_sublist isUnary).subperm
  have hcall : LinearExpr 0 ((ts.takeWhile isUnary).foldr Expr.unary <$> call expression) :=
    (linear_call h).map fun e => (congrArg placed (huses _ e)).le
  exact (hcall (ts.dropWhile isUnary)).mono (add_le_add le_rfl hdrop)

theorem linear_leftAssociative {node : Expr Unit → Token → Expr Unit → Expr Unit}
    (hnode : ∀ l t r, (node l t r).uses = l.uses ++ r.uses) (operators : List Token.Kind)
    {operand : Expression} (h : LinearExpr 0 operand) :
    LinearExpr 0 (leftAssociative node operators operand) := by
  have hoperands (n : Nat) (left : Expr Unit) :
      LinearExpr (placed left.uses) (operands node operators operand n left) := by
    induction n generalizing left with
    | zero => exact linear_pure le_rfl
    | succ n ih =>
        refine (linear_accept? operators).bind fun found => ?_
        cases found with
        | none => exact linear_pure (by simp)
        | some operator => exact h.bind fun right => (ih _).mono (by simp [hnode])
  exact h.bind fun left => .bounded fun n => (hoperands n left).mono (by simp)

theorem linear_disjunction (h : LinearExpr 0 expression) : LinearExpr 0 (disjunction expression) := by
  have hbinary (l : Expr Unit) (t : Token) (r : Expr Unit) :
      (Expr.binary l t r).uses = l.uses ++ r.uses := rfl
  have hlogical (l : Expr Unit) (t : Token) (r : Expr Unit) :
      (Expr.logical l t r).uses = l.uses ++ r.uses := rfl
  refine linear_leftAssociative hlogical _ (linear_leftAssociative hlogical _ ?_)
  refine linear_leftAssociative hbinary _ (linear_leftAssociative hbinary _ ?_)
  exact linear_leftAssociative hbinary _ (linear_leftAssociative hbinary _ (linear_unary h))

/-- The name of a target becomes that of the assignment. -/
theorem placed_assignTo? {target value e : Expr Unit} (h : assignTo? target value = some e) :
    placed e.uses ≤ placed target.uses + placed value.uses := by
  unfold assignTo? at h
  split at h
  · cases h
    simp
  · cases h
    simp
  · cases h

theorem linear_assignment (h : LinearExpr 0 expression) : LinearExpr 0 (assignment expression) := by
  refine (linear_disjunction h).bind fun target => linear_here.bind fun left => ?_
  refine (linear_accept? [.equal]).bind fun found => ?_
  cases found with
  | none => exact linear_pure (by simp)
  | some _ =>
      refine h.bind fun value => ?_
      cases hassign : assignTo? target value with
      | some e => exact linear_pure (by simpa using placed_assignTo? hassign)
      | none =>
          refine (linear_report left .assignmentTarget).bind fun _ => linear_pure ?_
          simp only [zero_add, add_zero]
          exact Multiset.le_add_right _ _

theorem linear_expression : LinearExpr 0 Parser.expression := by
  have hall (n : Nat) : LinearExpr 0 (expressionIn n) := by
    induction n with
    | zero => exact linear_fail .expression
    | succ n ih => exact linear_assignment ih
  exact fun ts => hall _ ts

end Expressions

/-! ### Statements and declarations -/

abbrev LinearStmt (held : Multiset Token) (p : Statement) : Prop :=
  Linear held (fun s => placed s.uses) p

abbrev LinearExpr? (p : Parser (Option (Expr Unit))) : Prop :=
  Linear 0 (fun e => placed (Expr.usesOf e)) p

/-- A dropped declaration has no places. -/
abbrev LinearDecl (p : Declaration) : Prop :=
  Linear 0 (fun d => placed (Stmt.usesAll d.toList)) p

abbrev LinearStmts (p : Parser (List (Stmt Unit))) : Prop :=
  Linear 0 (fun ss => placed (Stmt.usesAll ss)) p

theorem usesAll_append (ss others : List (Stmt Unit)) :
    Stmt.usesAll (ss ++ others) = Stmt.usesAll ss ++ Stmt.usesAll others := by
  induction ss with
  | nil => rfl
  | cons s ss ih => simp [ih]

section Statements

variable {declaration : Declaration} {statement : Statement}

theorem linear_expressionStatement : LinearStmt 0 expressionStatement :=
  linear_expression.bind fun _ => (linear_skip .semicolon _).bind fun _ =>
    linear_pure (by simp)

theorem linear_printStatement : LinearStmt 0 printStatement :=
  linear_expression.bind fun _ => (linear_skip .semicolon _).bind fun _ =>
    linear_pure (by simp)

theorem linear_unlessAt (kind : Token.Kind) : LinearExpr? (unlessAt kind) := by
  refine (linear_sees kind).bind fun found => ?_
  split
  · exact linear_pure (by simp)
  · exact linear_expression.bind fun e => linear_pure (by simp)

theorem linear_returnStatement (keyword : Token) : LinearStmt 0 (returnStatement keyword) :=
  (linear_unlessAt .semicolon).bind fun _ => (linear_skip .semicolon _).bind fun _ =>
    linear_pure (by simp)

theorem linear_variableDeclaration : LinearStmt 0 variableDeclaration := by
  have hend (name : Token) (init : Option (Expr Unit)) :
      LinearStmt (placed (Expr.usesOf init))
        (expect .semicolon .variableEnd >>= fun _ => pure (Stmt.var name init)) :=
    (linear_skip .semicolon _).bind fun _ => linear_pure (by simp)
  refine (linear_skip .identifier _).bind fun name => (linear_accept? [.equal]).bind fun found => ?_
  cases found with
  | some _ =>
      have hinit : LinearExpr? (some <$> Parser.expression) :=
        linear_expression.map fun e => le_rfl
      exact hinit.bind fun init => (hend name init).mono (by simp)
  | none =>
      have hinit : LinearExpr? (pure none) := linear_pure (Multiset.zero_le _)
      exact hinit.bind fun init => (hend name init).mono (by simp)

theorem linear_whileStatement (h : LinearStmt 0 statement) :
    LinearStmt 0 (whileStatement statement) :=
  (linear_skip .leftParen _).bind fun _ => linear_expression.bind fun _ =>
    (linear_skip .rightParen _).bind fun _ => h.bind fun _ => linear_pure (by simp)

theorem linear_ifStatement (h : LinearStmt 0 statement) : LinearStmt 0 (ifStatement statement) := by
  refine (linear_skip .leftParen _).bind fun _ => linear_expression.bind fun _ => ?_
  refine (linear_skip .rightParen _).bind fun _ => h.bind fun _ => ?_
  refine (linear_accept? [.elseWord]).bind fun found => ?_
  cases found with
  | some _ => exact h.bind fun _ => linear_pure (by simp [add_assoc])
  | none => exact linear_pure (by simp)

theorem linear_forInitializer :
    Linear 0 (fun init => placed (Stmt.usesAll init.toList)) forInitializer := by
  refine (linear_accept? [.semicolon, .varWord]).bind fun found => ?_
  cases found with
  | none => exact linear_expressionStatement.bind fun s => linear_pure (by simp)
  | some t =>
      dsimp only
      split
      · exact linear_pure (by simp)
      · exact linear_variableDeclaration.bind fun s => linear_pure (by simp)

/-- The increment stands behind the body in the tree, and before it in the text. -/
theorem placed_forLoop (init : Option (Stmt Unit)) (condition increment : Option (Expr Unit))
    (body : Stmt Unit) :
    placed (forLoop init condition increment body).uses =
      placed (Stmt.usesAll init.toList) + placed (Expr.usesOf condition) +
        placed (Expr.usesOf increment) + placed body.uses := by
  have hcondition : (condition.getD (.literal (.bool true))).uses = Expr.usesOf condition := by
    cases condition <;> rfl
  cases init <;> cases increment <;>
    simp only [forLoop, Stmt.uses, Stmt.usesAll, Expr.usesOf, hcondition, placed_append, placed_nil,
      Option.toList_none, Option.toList_some] <;>
    abel

theorem linear_forStatement (h : LinearStmt 0 statement) :
    LinearStmt 0 (forStatement statement) := by
  refine (linear_skip .leftParen _).bind fun _ => linear_forInitializer.bind fun init => ?_
  refine (linear_unlessAt .semicolon).bind fun condition => ?_
  refine (linear_skip .semicolon _).bind fun _ => ?_
  refine (linear_unlessAt .rightParen).bind fun increment => ?_
  refine (linear_skip .rightParen _).bind fun _ => h.bind fun body => linear_pure ?_
  simp [placed_forLoop]

theorem linear_declarations (h : LinearDecl declaration) (n : Nat) :
    LinearStmts (declarations declaration n) := by
  induction n with
  | zero => exact linear_pure le_rfl
  | succ n ih =>
      intro ts
      cases ts with
      | nil => exact linear_pure le_rfl []
      | cons t ts =>
          have hmore : LinearStmts (declaration >>= fun first =>
              declarations declaration n >>= fun others => pure (first.toList ++ others)) :=
            h.bind fun first => ih.bind fun others => linear_pure (by simp [usesAll_append])
          unfold declarations
          dsimp only
          split
          · exact linear_pure (Multiset.zero_le _) (t :: ts)
          · exact hmore (t :: ts)

theorem linear_block (h : LinearDecl declaration) : LinearStmts (block declaration) :=
  (Linear.bounded (linear_declarations h)).bind fun _ =>
    (linear_skip .rightBrace _).bind fun _ => linear_pure (by simp)

theorem linear_functionDecl (h : LinearDecl declaration) (role : FunctionRole) :
    Linear 0 (fun d => placed d.uses) (functionDecl declaration role) := by
  have hparameter : Linear 0 (fun _ => 0) (expect .identifier .parameterName) :=
    linear_skip .identifier _
  refine (linear_skip .identifier _).bind fun name => (linear_skip .leftParen _).bind fun _ => ?_
  refine (linear_parenthesized hparameter _ _).bind fun params => ?_
  refine (linear_skip .leftBrace _).bind fun _ => (linear_block h).bind fun body => linear_pure ?_
  exact Multiset.le_add_left _ _

theorem linear_methods (h : LinearDecl declaration) (n : Nat) :
    Linear 0 (fun ds => placed (FunctionDecl.usesAll ds)) (methods declaration n) := by
  induction n with
  | zero => exact linear_pure le_rfl
  | succ n ih =>
      intro ts
      cases ts with
      | nil => exact linear_pure le_rfl []
      | cons t ts =>
          have hmore : Linear 0 (fun ds => placed (FunctionDecl.usesAll ds))
              (functionDecl declaration .method >>= fun first =>
                methods declaration n >>= fun others => pure (first :: others)) :=
            (linear_functionDecl h .method).bind fun first => ih.bind fun others =>
              linear_pure (by simp)
          unfold methods
          dsimp only
          split
          · exact linear_pure (Multiset.zero_le _) (t :: ts)
          · exact hmore (t :: ts)

theorem linear_superclassClause :
    Linear 0 (fun base => placed (Use.ofSuperclass base)) superclassClause := by
  refine (linear_accept? [.less]).bind fun found => ?_
  cases found with
  | some _ =>
      exact (linear_expect .identifier _).bind fun name => linear_pure (by simp [Use.ofSuperclass])
  | none => exact linear_pure (by simp [Use.ofSuperclass])

theorem linear_classDeclaration (h : LinearDecl declaration) :
    LinearStmt 0 (classDeclaration declaration) := by
  refine (linear_skip .identifier _).bind fun name => linear_superclassClause.bind fun base => ?_
  refine (linear_skip .leftBrace _).bind fun _ => ?_
  refine (Linear.bounded (linear_methods h)).bind fun ds => ?_
  exact (linear_skip .rightBrace _).bind fun _ => linear_pure (by simp)

theorem linear_statementWith (hd : LinearDecl declaration) (hs : LinearStmt 0 statement) :
    LinearStmt 0 (statementWith declaration statement) := by
  intro ts
  cases ts with
  | nil => exact linear_expressionStatement []
  | cons t ts =>
      have htail {p : Statement} (hp : LinearStmt 0 p) :
          (p ts).Spends (0 + ((t :: ts : List Token) : Multiset Token)) fun s => placed s.uses :=
        spends_tail (hp.mono (Multiset.zero_le _)) ts
      unfold statementWith
      dsimp only
      split
      · exact htail (linear_forStatement hs)
      · exact htail (linear_ifStatement hs)
      · exact htail linear_printStatement
      · exact htail (linear_returnStatement t)
      · exact htail (linear_whileStatement hs)
      · exact htail ((linear_block hd).map fun _ => le_rfl)
      · exact linear_expressionStatement (t :: ts)

theorem linear_declarationWith (hd : LinearDecl declaration) (hs : LinearStmt 0 statement) :
    LinearStmt 0 (declarationWith declaration statement) := by
  intro ts
  cases ts with
  | nil => exact linear_statementWith hd hs []
  | cons t ts =>
      have htail {p : Statement} (hp : LinearStmt 0 p) :
          (p ts).Spends (0 + ((t :: ts : List Token) : Multiset Token)) fun s => placed s.uses :=
        spends_tail (hp.mono (Multiset.zero_le _)) ts
      unfold declarationWith
      dsimp only
      split
      · exact htail (linear_classDeclaration hd)
      · exact htail ((linear_functionDecl hd .function).map fun _ => le_rfl)
      · exact htail linear_variableDeclaration
      · exact linear_statementWith hd hs (t :: ts)

theorem LinearDecl.of_statement {p : Statement} (h : LinearStmt 0 p) : LinearDecl (recovering p) := by
  have hspent : (fun found : Option (Stmt Unit) => found.elim 0 fun s => placed s.uses) =
      fun d => placed (Stmt.usesAll d.toList) := by
    funext d
    cases d <;> simp
  have hrecovering := h.recovering
  rwa [hspent] at hrecovering

theorem linear_declaration : LinearDecl Parser.declaration := by
  have hall (n : Nat) : LinearStmt 0 (statementIn n) ∧ LinearDecl (declarationIn n) := by
    induction n with
    | zero => exact ⟨linear_fail .expression, .of_statement (linear_fail .expression)⟩
    | succ n ih =>
        rw [statementIn, declarationIn]
        exact ⟨linear_statementWith ih.2 ih.1, .of_statement (linear_declarationWith ih.2 ih.1)⟩
  exact fun ts => (hall _).2 ts

theorem linear_program (n : Nat) : LinearStmts (program n) := by
  induction n with
  | zero => exact linear_pure le_rfl
  | succ n ih =>
      intro ts
      cases ts with
      | nil => exact linear_pure le_rfl []
      | cons t ts =>
          have hmore : LinearStmts (Parser.declaration >>= fun first =>
              program n >>= fun others => pure (first.toList ++ others)) :=
            linear_declaration.bind fun first => ih.bind fun others =>
              linear_pure (by simp [usesAll_append])
          exact hmore (t :: ts)

end Statements

end Parser

/-- The places of a program are made out of different tokens. -/
theorem Parsed.subperm_tokens (tokens : List Token) :
    ((Stmt.usesAll (Parsed.ofTokens tokens).program).map Use.token).Subperm tokens := by
  have hspent := Parser.linear_program tokens.length tokens
  rw [zero_add] at hspent
  unfold Parsed.ofTokens Parser.bounded
  cases hrun : Parser.program tokens.length tokens with
  | failed rest errors => exact List.nil_subperm
  | ok program rest errors =>
      rw [hrun] at hspent
      exact Multiset.coe_le.mp (le_trans (Multiset.le_add_right _ _) hspent)

end Lox
