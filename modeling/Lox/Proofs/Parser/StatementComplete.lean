import Lox.Proofs.Parser.ExpressionComplete
import Lox.Proofs.Parser.StatementSound

/-!
# Statements and programs that are derivable

The same for the grammar above expressions. A clause is read where at least as many levels may nest
as it has tokens; a dangling statement is read in front of everything but an `else`.
-/

namespace Lox.Parser

open Grammar

theorem expressionStatement_of_derives {u : List Token} {s : Stmt Unit}
    (h : ExpressionStatement u s) (v : List Token) : expressionStatement (u ++ v) = .ok s v [] := by
  obtain @⟨u, e, semicolon, hu, hend⟩ := h
  have hread := expression_of_derives hu (stops_cons (t := semicolon) (by rw [hend]; decide) v)
  rw [List.append_assoc, List.singleton_append, expressionStatement, bind_of_ok hread,
    bind_of_ok (expect_of_kind hend _ _)]
  rfl

/-- Kinds of tokens at which an expression that may be left out ends. -/
def closesOptional (kind : Token.Kind) : Bool :=
  kind == .semicolon || kind == .rightParen

theorem unlessAt_of_optionally {kind : Token.Kind} (hkind : closesOptional kind = true)
    {u : List Token} {value : Option (Expr Unit)} (h : Optionally Grammar.Expression u value)
    {t : Token} (ht : t.kind = kind) (v : List Token) :
    unlessAt kind (u ++ t :: v) = .ok value (t :: v) [] := by
  cases h with
  | absent =>
      rw [List.nil_append, unlessAt, bind_of_ok (sees_of_kind ht v)]
      rfl
  | @present u e hu =>
      have hstop : Stops Level.assignment.continues (t :: v) := by
        refine stops_cons ?_ v
        rw [ht]
        revert hkind
        cases kind <;> decide
      have hread := expression_of_derives hu hstop
      obtain ⟨first, rest, rfl, hfirst⟩ := Level.Derives.begins hu
      have hne : first.kind ≠ kind := by
        rintro rfl
        revert hkind hfirst
        cases first.kind <;> decide
      rw [unlessAt, List.cons_append, bind_of_ok (sees_of_ne hne _)]
      simp only [Bool.false_eq_true, ↓reduceIte]
      rw [← List.cons_append, bind_of_ok hread]
      rfl

theorem variableDeclaration_of_derives {u : List Token} {s : Stmt Unit}
    (h : VariableDeclaration u s) :
    ∃ keyword w, u = keyword :: w ∧ keyword.kind = .varWord ∧
      ∀ v, variableDeclaration (w ++ v) = .ok s v [] := by
  cases h with
  | @plain keyword name semicolon hkeyword hname hend =>
      refine ⟨keyword, _, rfl, hkeyword, fun v => ?_⟩
      have hstop : Stops [.equal] (semicolon :: v) := stops_cons (by rw [hend]; decide) v
      rw [variableDeclaration, List.cons_append, bind_of_ok (expect_of_kind hname _ _),
        List.singleton_append, bind_of_ok (accept?_of_stop hstop)]
      dsimp only
      rw [bind_of_ok rfl, bind_of_ok (expect_of_kind hend _ _)]
      rfl
  | @initialized keyword name equal semicolon u e hkeyword hname hequal hu hend =>
      refine ⟨keyword, name :: equal :: (u ++ [semicolon]), rfl, hkeyword, fun v => ?_⟩
      have hread := expression_of_derives hu (stops_cons (t := semicolon) (by rw [hend]; decide) v)
      simp only [List.cons_append, List.append_assoc, List.nil_append]
      rw [variableDeclaration, bind_of_ok (expect_of_kind hname _ _),
        bind_of_ok (accept?_of_mem (by simp [hequal]) _)]
      dsimp only
      rw [bind_of_ok (map_of_ok hread some), bind_of_ok (expect_of_kind hend _ _)]
      rfl

theorem forInitializer_of_derives {u : List Token} {init : Option (Stmt Unit)}
    (h : Initializer u init) (v : List Token) : forInitializer (u ++ v) = .ok init v [] := by
  cases h with
  | absent hend =>
      rw [forInitializer, List.singleton_append, bind_of_ok (accept?_of_mem (by simp [hend]) v)]
      simp only [hend, ↓reduceIte]
      rfl
  | variableDecl h =>
      obtain ⟨keyword, w, rfl, hkeyword, hread⟩ := variableDeclaration_of_derives h
      rw [forInitializer, List.cons_append, bind_of_ok (accept?_of_mem (by simp [hkeyword]) _)]
      simp only [hkeyword, reduceCtorEq, ↓reduceIte]
      exact map_of_ok (hread v) some
  | expressionStmt h =>
      have hstop : Stops [.semicolon, .varWord] (u ++ v) := (h.begins.append v).stops (by decide)
      rw [forInitializer, bind_of_ok (accept?_of_stop hstop)]
      exact map_of_ok (expressionStatement_of_derives h v) some

/-! ### What the parsers of clauses do -/

/-- Phrases one behind the other. -/
inductive Sequence {α : Type} (D : List Token → α → Prop) : List Token → List α → Prop where
  | nil : Sequence D [] []
  | cons {u w : List Token} {a : α} {others : List α} (h : D u a) (hothers : Sequence D w others) :
      Sequence D (u ++ w) (a :: others)

/-- Only a dangling statement minds what stands behind it. -/
def GivesStatement (dangling : Bool) (u : List Token) (s : Stmt Unit) : Prop :=
  BeginsWith opensStatement u ∧
    ∀ n v, u.length ≤ n → (dangling = true → Stops [.elseWord] v) →
      statementWith (declarationIn n) (statementIn n) (u ++ v) = .ok s v []

def GivesDeclaration (u : List Token) (s : Stmt Unit) : Prop :=
  BeginsWith opensDeclaration u ∧
    ∀ n v, u.length ≤ n → Stops [.elseWord] v →
      declarationWith (declarationIn n) (statementIn n) (u ++ v) = .ok s v []

def GivesFunction (u : List Token) (d : FunctionDecl Unit) : Prop :=
  BeginsWith (· == .identifier) u ∧
    ∀ n role v, u.length ≤ n → functionDecl (declarationIn n) role (u ++ v) = .ok d v []

def Clause.Parses : (x : Clause) → List Token → x.Tree → Prop
  | .statement dangling, u, s => GivesStatement dangling u s
  | .declaration, u, s => GivesDeclaration u s
  | .declarations, u, ss => Sequence GivesDeclaration u ss
  | .function, u, d => GivesFunction u d
  | .methods, u, ds => Sequence GivesFunction u ds

theorem Sequence.stops {α : Type} {D : List Token → α → Prop} {p : Token.Kind → Bool}
    {kinds : List Token.Kind} (hbegin : ∀ u a, D u a → BeginsWith p u)
    (hp : ∀ kind ∈ kinds, p kind = false) {u : List Token} {items : List α}
    (h : Sequence D u items) {v : List Token} (hv : Stops kinds v) : Stops kinds (u ++ v) := by
  cases h with
  | nil => exact hv
  | cons h _ => exact (((hbegin _ _ h).append _).append v).stops hp

theorem statementIn_of_gives {dangling : Bool} {u : List Token} {s : Stmt Unit}
    (h : GivesStatement dangling u s) {n : Nat} (hn : u.length < n) {v : List Token}
    (hstop : dangling = true → Stops [.elseWord] v) : statementIn n (u ++ v) = .ok s v [] := by
  cases n with
  | zero => exact absurd hn (Nat.not_lt_zero _)
  | succ n =>
      rw [statementIn]
      exact h.2 n v (Nat.le_of_lt_succ hn) hstop

theorem declarationIn_of_gives {u : List Token} {s : Stmt Unit} (h : GivesDeclaration u s)
    {n : Nat} (hn : u.length < n) {v : List Token} (hstop : Stops [.elseWord] v) :
    declarationIn n (u ++ v) = .ok (some s) v [] := by
  cases n with
  | zero => exact absurd hn (Nat.not_lt_zero _)
  | succ n => rw [declarationIn, recovering, h.2 n v (Nat.le_of_lt_succ hn) hstop]

theorem declarations_of_sequence {n : Nat} {right : Token} (hright : right.kind = .rightBrace)
    (v : List Token) {u : List Token} {ss : List (Stmt Unit)}
    (h : Sequence GivesDeclaration u ss) (k : Nat) (hn : u.length < n) (hk : u.length ≤ k) :
    declarations (declarationIn n) k (u ++ right :: v) = .ok ss (right :: v) [] := by
  induction h generalizing k with
  | nil =>
      cases k with
      | zero => rfl
      | succ k => simp [declarations, hright]
  | @cons u w s ss h hothers ih =>
      have hstop : Stops [.elseWord] (w ++ right :: v) :=
        hothers.stops (fun _ _ h => h.1) (by decide) (stops_cons (by rw [hright]; decide) v)
      obtain ⟨first, rest, rfl, hfirst⟩ := h.1
      have hne : first.kind ≠ .rightBrace := fun hkind => by rw [hkind] at hfirst; cases hfirst
      simp only [List.length_append, List.length_cons] at hn hk
      have hread := declarationIn_of_gives h (n := n) (by simp only [List.length_cons]; omega) hstop
      cases k with
      | zero => omega
      | succ k =>
          rw [List.append_assoc]
          simp only [declarations, List.cons_append, hne, ↓reduceIte]
          rw [← List.cons_append, bind_of_ok hread, bind_of_ok (ih k (by omega) (by omega))]
          rfl

theorem methods_of_sequence {n : Nat} {right : Token} (hright : right.kind = .rightBrace)
    (v : List Token) {u : List Token} {ds : List (FunctionDecl Unit)}
    (h : Sequence GivesFunction u ds) (k : Nat) (hn : u.length ≤ n) (hk : u.length ≤ k) :
    methods (declarationIn n) k (u ++ right :: v) = .ok ds (right :: v) [] := by
  induction h generalizing k with
  | nil =>
      cases k with
      | zero => rfl
      | succ k => simp [methods, hright]
  | @cons u w d ds h hothers ih =>
      obtain ⟨first, rest, rfl, hfirst⟩ := h.1
      have hne : first.kind ≠ .rightBrace := fun hkind => by rw [hkind] at hfirst; cases hfirst
      simp only [List.length_append, List.length_cons] at hn hk
      have hread := h.2 n .method (w ++ right :: v) (by simp only [List.length_cons]; omega)
      cases k with
      | zero => omega
      | succ k =>
          rw [List.append_assoc]
          simp only [methods, List.cons_append, hne, ↓reduceIte]
          rw [← List.cons_append, bind_of_ok hread, bind_of_ok (ih k (by omega) (by omega))]
          rfl

theorem program_of_sequence {u : List Token} {ss : List (Stmt Unit)}
    (h : Sequence GivesDeclaration u ss) (k : Nat) (hk : u.length ≤ k) :
    program k u = .ok ss [] [] := by
  induction h generalizing k with
  | nil => cases k <;> rfl
  | @cons u w s ss h hothers ih =>
      have hstop : Stops [.elseWord] (w ++ []) :=
        hothers.stops (fun _ _ h => h.1) (by decide) fun _ _ hv => nomatch hv
      rw [List.append_nil] at hstop
      have hread : declaration (u ++ w) = .ok (some s) w [] :=
        declarationIn_of_gives h (by simp only [List.length_append]; omega) hstop
      obtain ⟨first, rest, rfl, hfirst⟩ := h.1
      simp only [List.length_append, List.length_cons] at hk
      cases k with
      | zero => omega
      | succ k =>
          simp only [program, List.cons_append]
          rw [← List.cons_append, bind_of_ok hread, bind_of_ok (ih k (by omega))]
          rfl

theorem block_of_sequence {n : Nat} {right : Token} (hright : right.kind = .rightBrace)
    (v : List Token) {u : List Token} {ss : List (Stmt Unit)}
    (h : Sequence GivesDeclaration u ss) (hn : u.length < n) :
    block (declarationIn n) (u ++ right :: v) = .ok ss v [] := by
  have hread : bounded (declarations (declarationIn n)) (u ++ right :: v) =
      .ok ss (right :: v) [] :=
    declarations_of_sequence hright v h _ hn (by simp)
  rw [block, bind_of_ok hread, bind_of_ok (expect_of_kind hright _ _)]
  rfl

/-! ### Statements -/

theorem statementWith_of_expression {declaration : Declaration} {statement : Statement}
    {ts : List Token} (h : BeginsWith startsExpression ts) :
    statementWith declaration statement ts = expressionStatement ts := by
  obtain ⟨t, rest, rfl, ht⟩ := h
  unfold statementWith
  dsimp only
  split <;> rename_i hkind <;> first | rfl | (rw [hkind] at ht; cases ht)

theorem gives_exprStmt {u : List Token} {s : Stmt Unit} (h : ExpressionStatement u s) :
    GivesStatement false u s := by
  refine ⟨h.begins.mono fun kind hkind => by simp [opensStatement, hkind], fun n v _ _ => ?_⟩
  rw [statementWith_of_expression (h.begins.append v)]
  exact expressionStatement_of_derives h v

theorem gives_printStmt {keyword semicolon : Token} {u : List Token} {e : Expr Unit}
    (hkeyword : keyword.kind = .printWord) (h : Grammar.Expression u e)
    (hend : semicolon.kind = .semicolon) :
    GivesStatement false (keyword :: u ++ [semicolon]) (.print e) := by
  refine ⟨⟨_, _, rfl, by rw [hkeyword]; rfl⟩, fun n v _ _ => ?_⟩
  have hread := expression_of_derives h (stops_cons (t := semicolon) (by rw [hend]; decide) v)
  simp only [List.cons_append, List.append_assoc, List.nil_append, statementWith, hkeyword]
  rw [printStatement, bind_of_ok hread, bind_of_ok (expect_of_kind hend _ _)]
  rfl

theorem gives_returnStmt {keyword semicolon : Token} {u : List Token} {value : Option (Expr Unit)}
    (hkeyword : keyword.kind = .returnWord) (h : Optionally Grammar.Expression u value)
    (hend : semicolon.kind = .semicolon) :
    GivesStatement false (keyword :: u ++ [semicolon]) (.return keyword value) := by
  refine ⟨⟨_, _, rfl, by rw [hkeyword]; rfl⟩, fun n v _ _ => ?_⟩
  have hread := unlessAt_of_optionally rfl h hend v
  simp only [List.cons_append, List.append_assoc, List.nil_append, statementWith, hkeyword]
  rw [returnStatement, bind_of_ok hread, bind_of_ok (expect_of_kind hend _ _)]
  rfl

theorem gives_blockStmt {left right : Token} {u : List Token} {body : List (Stmt Unit)}
    (hleft : left.kind = .leftBrace) (h : Sequence GivesDeclaration u body)
    (hright : right.kind = .rightBrace) :
    GivesStatement false (left :: u ++ [right]) (.block body) := by
  refine ⟨⟨_, _, rfl, by rw [hleft]; rfl⟩, fun n v hn _ => ?_⟩
  simp only [List.length_append, List.length_cons] at hn
  have hread := block_of_sequence (n := n) hright v h (by omega)
  simp only [List.cons_append, List.append_assoc, List.nil_append, statementWith, hleft]
  exact map_of_ok hread Stmt.block

theorem gives_whileStmt {keyword left right : Token} {u w : List Token} {condition : Expr Unit}
    {dangling : Bool} {body : Stmt Unit} (hkeyword : keyword.kind = .whileWord)
    (hleft : left.kind = .leftParen) (hcondition : Grammar.Expression u condition)
    (hright : right.kind = .rightParen) (hbody : GivesStatement dangling w body) :
    GivesStatement dangling (keyword :: left :: u ++ right :: w) (.while condition body) := by
  refine ⟨⟨_, _, rfl, by rw [hkeyword]; rfl⟩, fun n v hn hstop => ?_⟩
  simp only [List.length_append, List.length_cons] at hn
  have hread := expression_of_derives hcondition
    (stops_cons (t := right) (by rw [hright]; decide) (w ++ v))
  have hnested := statementIn_of_gives hbody (n := n) (by omega) hstop
  simp only [List.cons_append, List.append_assoc, statementWith, hkeyword]
  rw [whileStatement, bind_of_ok (expect_of_kind hleft _ _), bind_of_ok hread,
    bind_of_ok (expect_of_kind hright _ _), bind_of_ok hnested]
  rfl

theorem gives_forStmt {keyword left semicolon right : Token} {u v w x : List Token}
    {init : Option (Stmt Unit)} {condition increment : Option (Expr Unit)} {dangling : Bool}
    {body : Stmt Unit} (hkeyword : keyword.kind = .forWord) (hleft : left.kind = .leftParen)
    (hinit : Initializer u init) (hcondition : Optionally Grammar.Expression v condition)
    (hend : semicolon.kind = .semicolon) (hincrement : Optionally Grammar.Expression w increment)
    (hright : right.kind = .rightParen) (hbody : GivesStatement dangling x body) :
    GivesStatement dangling (keyword :: left :: u ++ v ++ semicolon :: w ++ right :: x)
      (forTree init condition increment body) := by
  refine ⟨⟨_, _, rfl, by rw [hkeyword]; rfl⟩, fun n rest hn hstop => ?_⟩
  simp only [List.length_append, List.length_cons] at hn
  have hnested := statementIn_of_gives hbody (n := n) (by omega) hstop
  have hclauses := forInitializer_of_derives hinit (v ++ semicolon :: (w ++ right :: (x ++ rest)))
  simp only [List.cons_append, List.append_assoc, statementWith, hkeyword]
  rw [forStatement, bind_of_ok (expect_of_kind hleft _ _), bind_of_ok hclauses,
    bind_of_ok (unlessAt_of_optionally rfl hcondition hend _),
    bind_of_ok (expect_of_kind hend _ _),
    bind_of_ok (unlessAt_of_optionally rfl hincrement hright _),
    bind_of_ok (expect_of_kind hright _ _), bind_of_ok hnested, forLoop_eq_forTree]
  rfl

theorem gives_ifThen {keyword left right : Token} {u w : List Token} {condition : Expr Unit}
    {dangling : Bool} {body : Stmt Unit} (hkeyword : keyword.kind = .ifWord)
    (hleft : left.kind = .leftParen) (hcondition : Grammar.Expression u condition)
    (hright : right.kind = .rightParen) (hbody : GivesStatement dangling w body) :
    GivesStatement true (keyword :: left :: u ++ right :: w) (.ifThen condition body) := by
  refine ⟨⟨_, _, rfl, by rw [hkeyword]; rfl⟩, fun n v hn hstop => ?_⟩
  simp only [List.length_append, List.length_cons] at hn
  have hread := expression_of_derives hcondition
    (stops_cons (t := right) (by rw [hright]; decide) (w ++ v))
  have hnested := statementIn_of_gives hbody (n := n) (by omega) fun _ => hstop rfl
  simp only [List.cons_append, List.append_assoc, statementWith, hkeyword]
  rw [ifStatement, bind_of_ok (expect_of_kind hleft _ _), bind_of_ok hread,
    bind_of_ok (expect_of_kind hright _ _), bind_of_ok hnested,
    bind_of_ok (accept?_of_stop (hstop rfl))]
  rfl

/-- In front of an `else` only a statement that does not dangle is read to its end. -/
theorem gives_ifElse {keyword left right other : Token} {u w x : List Token} {condition : Expr Unit}
    {dangling : Bool} {yes no : Stmt Unit} (hkeyword : keyword.kind = .ifWord)
    (hleft : left.kind = .leftParen) (hcondition : Grammar.Expression u condition)
    (hright : right.kind = .rightParen) (hyes : GivesStatement false w yes)
    (hother : other.kind = .elseWord) (hno : GivesStatement dangling x no) :
    GivesStatement dangling (keyword :: left :: u ++ right :: w ++ other :: x)
      (.ifElse condition yes no) := by
  refine ⟨⟨_, _, rfl, by rw [hkeyword]; rfl⟩, fun n v hn hstop => ?_⟩
  simp only [List.length_append, List.length_cons] at hn
  have hread := expression_of_derives hcondition
    (stops_cons (t := right) (by rw [hright]; decide) (w ++ other :: (x ++ v)))
  have hthen := statementIn_of_gives hyes (n := n) (v := other :: (x ++ v)) (by omega)
    fun h => nomatch h
  have helse := statementIn_of_gives hno (n := n) (by omega) hstop
  simp only [List.cons_append, List.append_assoc, statementWith, hkeyword]
  rw [ifStatement, bind_of_ok (expect_of_kind hleft _ _), bind_of_ok hread,
    bind_of_ok (expect_of_kind hright _ _), bind_of_ok hthen,
    bind_of_ok (accept?_of_mem (by simp [hother]) _)]
  dsimp only
  rw [bind_of_ok helse]
  rfl

/-! ### Declarations -/

theorem gives_statementDecl {dangling : Bool} {u : List Token} {s : Stmt Unit}
    (h : GivesStatement dangling u s) : GivesDeclaration u s := by
  refine ⟨h.1.mono fun kind hkind => by simp [opensDeclaration, hkind], fun n v hn hstop => ?_⟩
  rw [← h.2 n v hn fun _ => hstop]
  obtain ⟨t, rest, rfl, ht⟩ := h.1
  rw [List.cons_append]
  unfold declarationWith
  dsimp only
  split <;> rename_i hkind <;> first | rfl | (rw [hkind] at ht; cases ht)

theorem gives_variableDecl {u : List Token} {s : Stmt Unit} (h : VariableDeclaration u s) :
    GivesDeclaration u s := by
  obtain ⟨keyword, w, rfl, hkeyword, hread⟩ := variableDeclaration_of_derives h
  refine ⟨⟨_, _, rfl, by rw [hkeyword]; rfl⟩, fun n v _ _ => ?_⟩
  simp only [List.cons_append, declarationWith, hkeyword]
  exact hread v

theorem gives_functionDecl {keyword : Token} {u : List Token} {d : FunctionDecl Unit}
    (hkeyword : keyword.kind = .funWord) (h : GivesFunction u d) :
    GivesDeclaration (keyword :: u) (.function d) := by
  refine ⟨⟨_, _, rfl, by rw [hkeyword]; rfl⟩, fun n v hn _ => ?_⟩
  simp only [List.cons_append, declarationWith, hkeyword]
  exact map_of_ok (h.2 n .function v (Nat.le_of_succ_le hn)) Stmt.function

theorem parameters_of_derives {u params : List Token} (h : Parameters u params)
    {right : Token} (hright : right.kind = .rightParen) (v : List Token) :
    parenthesized (expect .identifier .parameterName) .tooManyParams .paramsEnd
      (u ++ right :: v) = .ok (params, right) v [] := by
  cases h with
  | absent => exact parenthesized_nil _ _ _ hright v
  | present h hlimit =>
      refine parenthesized_of_separated ?_ _ _ hright v h hlimit ?_
      · rintro u name t v ⟨rfl, hname⟩ _
        exact expect_of_kind hname _ _
      · cases h with
        | one h =>
            obtain ⟨rfl, hname⟩ := h
            exact ⟨_, _, rfl, by rw [hname]; decide⟩
        | more h _ _ =>
            obtain ⟨rfl, hname⟩ := h
            exact ⟨_, _, rfl, by rw [hname]; decide⟩

theorem gives_function {name left right opening closing : Token} {u w params : List Token}
    {body : List (Stmt Unit)} (hname : name.kind = .identifier) (hleft : left.kind = .leftParen)
    (hparams : Parameters u params) (hright : right.kind = .rightParen)
    (hopening : opening.kind = .leftBrace) (hbody : Sequence GivesDeclaration w body)
    (hclosing : closing.kind = .rightBrace) :
    GivesFunction (name :: left :: u ++ right :: opening :: w ++ [closing])
      ⟨name, params, body⟩ := by
  refine ⟨⟨_, _, rfl, by rw [hname]; rfl⟩, fun n role v hn => ?_⟩
  simp only [List.length_append, List.length_cons] at hn
  have hblock := block_of_sequence (n := n) hclosing v hbody (by omega)
  simp only [List.cons_append, List.append_assoc, List.nil_append]
  rw [functionDecl, bind_of_ok (expect_of_kind hname _ _), bind_of_ok (expect_of_kind hleft _ _),
    bind_of_ok (parameters_of_derives hparams hright _)]
  dsimp only
  rw [bind_of_ok (expect_of_kind hopening _ _), bind_of_ok hblock]
  rfl

theorem superclassClause_of_derives {u : List Token} {superclass : Option (Token × Unit)}
    (h : Superclass u superclass) {left : Token} (hleft : left.kind = .leftBrace)
    (v : List Token) : superclassClause (u ++ left :: v) = .ok superclass (left :: v) [] := by
  cases h with
  | absent =>
      have hstop : Stops [.less] (left :: v) := stops_cons (by rw [hleft]; decide) v
      rw [superclassClause, List.nil_append, bind_of_ok (accept?_of_stop hstop)]
      rfl
  | present hless hname =>
      simp only [List.cons_append, List.nil_append]
      rw [superclassClause, bind_of_ok (accept?_of_mem (by simp [hless]) _)]
      dsimp only
      rw [bind_of_ok (expect_of_kind hname _ _)]
      rfl

theorem gives_classDecl {keyword name left right : Token} {u w : List Token}
    {superclass : Option (Token × Unit)} {ds : List (FunctionDecl Unit)}
    (hkeyword : keyword.kind = .classWord) (hname : name.kind = .identifier)
    (hsuperclass : Superclass u superclass) (hleft : left.kind = .leftBrace)
    (hmethods : Sequence GivesFunction w ds) (hright : right.kind = .rightBrace) :
    GivesDeclaration (keyword :: name :: u ++ left :: w ++ [right]) (.class name superclass ds) := by
  refine ⟨⟨_, _, rfl, by rw [hkeyword]; rfl⟩, fun n v hn _ => ?_⟩
  simp only [List.length_append, List.length_cons] at hn
  have hread : bounded (methods (declarationIn n)) (w ++ right :: v) = .ok ds (right :: v) [] :=
    methods_of_sequence hright v hmethods _ (by omega) (by simp)
  simp only [List.cons_append, List.append_assoc, List.nil_append, declarationWith, hkeyword]
  rw [classDeclaration, bind_of_ok (expect_of_kind hname _ _),
    bind_of_ok (superclassClause_of_derives hsuperclass hleft _),
    bind_of_ok (expect_of_kind hleft _ _), bind_of_ok hread, bind_of_ok (expect_of_kind hright _ _)]
  rfl

theorem Clause.parses_of_derives {x : Clause} {u : List Token} {t : x.Tree}
    (h : x.Derives true u t) : Clause.Parses x u t := by
  induction h with
  | exprStmt h => exact gives_exprStmt h
  | printStmt hkeyword h hend => exact gives_printStmt hkeyword h hend
  | returnStmt hkeyword h hend => exact gives_returnStmt hkeyword h hend
  | blockStmt hleft _ hright ih => exact gives_blockStmt hleft ih hright
  | whileStmt hkeyword hleft hcondition hright _ ih =>
      exact gives_whileStmt hkeyword hleft hcondition hright ih
  | forStmt hkeyword hleft hinit hcondition hend hincrement hright _ ih =>
      exact gives_forStmt hkeyword hleft hinit hcondition hend hincrement hright ih
  | ifThen hkeyword hleft hcondition hright _ ih =>
      exact gives_ifThen hkeyword hleft hcondition hright ih
  | ifElse hkeyword hleft hcondition hright _ hnearest hother _ ihyes ihno =>
      rw [hnearest rfl] at ihyes
      exact gives_ifElse hkeyword hleft hcondition hright ihyes hother ihno
  | statementDecl _ ih => exact gives_statementDecl ih
  | variableDecl h => exact gives_variableDecl h
  | functionDecl hkeyword _ ih => exact gives_functionDecl hkeyword ih
  | classDecl hkeyword hname hsuperclass hleft _ hright ih =>
      exact gives_classDecl hkeyword hname hsuperclass hleft ih hright
  | noDeclarations => exact .nil
  | declarations _ _ ih ihothers => exact .cons ih ihothers
  | function hname hleft hparams hright hopening _ hclosing ih =>
      exact gives_function hname hleft hparams hright hopening ih hclosing
  | noMethods => exact .nil
  | methods _ _ ih ihothers => exact .cons ih ihothers

/-- A program is read to its end, with its tree. -/
theorem program_of_derives {u : List Token} {ss : List (Stmt Unit)} (h : NearestProgram u ss) :
    bounded program u = .ok ss [] [] :=
  program_of_sequence (Clause.parses_of_derives h) u.length (Nat.le_refl _)

end Lox.Parser
