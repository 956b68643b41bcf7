import Lox.Proofs.Dump.Expression

/-!
# Statements are read back

A statement can be read off its form as an expression can. Parts of a node are read as expressions
and as statements, and its head says which of the two they are.
-/

namespace Lox

/-! ### The reader -/

namespace Form

def readWord : Form → Token
  | .word text => .ofLexeme text
  | _ => .ofLexeme []

/-- The first parameter stands where other nodes have their head. -/
def readParams : Form → List Token
  | .node (b :: head) parts => .ofLexeme (b :: head) :: parts.map readWord
  | _ => []

def readMethod : Stmt Unit → FunctionDecl Unit
  | .function decl => decl
  | _ => ⟨.ofLexeme [], [], []⟩

/-- The first part, as an expression. -/
def readFirst : List Form → Expr Unit
  | part :: _ => part.expr
  | [] => .literal .nil

/-- The parts of a class. Its superclass stands behind a mark, its methods are no words. -/
def readClass : List Form → List (Stmt Unit) → Stmt Unit
  | .word name :: .word _ :: .word base :: _, _ :: _ :: _ :: methods =>
      .class (.ofLexeme name) (some (.ofLexeme base, ())) (methods.map readMethod)
  | .word name :: _, _ :: methods => .class (.ofLexeme name) none (methods.map readMethod)
  | _, _ => .block []

/-- Nodes whose head is no reserved word and no symbol. -/
def readOther (head : Bytes) (parts : List Form) (ss : List (Stmt Unit)) : Stmt Unit :=
  if head = bytes "block" then .block ss
  else .ifElse (readFirst parts) (ss.getD 1 (.block [])) (ss.getD 2 (.block []))

def readStatement (kind : Token.Kind) (head : Bytes) (parts : List Form)
    (ss : List (Stmt Unit)) : Stmt Unit :=
  match kind with
  | .semicolon => .expr (readFirst parts)
  | .printWord => .print (readFirst parts)
  | .returnWord => .return (.ofLexeme (bytes "return")) (parts.head?.map expr)
  | .varWord => .var (readWord (parts.headD (.word []))) (parts.tail.head?.map expr)
  | .ifWord => .ifThen (readFirst parts) (ss.getD 1 (.block []))
  | .whileWord => .while (readFirst parts) (ss.getD 1 (.block []))
  | .funWord =>
      .function ⟨readWord (parts.headD (.word [])), readParams (parts.getD 1 (.word [])), ss.drop 2⟩
  | .classWord => readClass parts ss
  | _ => readOther head parts ss

mutual

def stmt : Form → Stmt Unit
  | .node head parts => readStatement (Token.kindOf head) head parts (stmts parts)
  | .word _ => .block []
  | .literal _ => .block []

def stmts : List Form → List (Stmt Unit)
  | [] => []
  | part :: parts => part.stmt :: stmts parts

end

theorem stmt_node {head : Bytes} {kind : Token.Kind} (h : Token.kindOf head = kind)
    (parts : List Form) :
    (Form.node head parts).stmt = readStatement kind head parts (stmts parts) := by
  rw [stmt, h]

end Form

/-- The statement is read back from its form. -/
structure Stmt.ReadsBack (s : Stmt Unit) : Prop where
  legible : s.form.Legible
  back : s.form.stmt = s.renumber fun _ => 0

structure FunctionDecl.ReadsBack (d : FunctionDecl Unit) : Prop where
  legible : d.form.Legible
  back : d.form.stmt = .function (d.renumber fun _ => 0)

/-! ### Lists of parts -/

section Lists

open Form

theorem legible_stmts {ss : List (Stmt Unit)} (h : ∀ s ∈ ss, s.ReadsBack) :
    LegibleAll (Stmt.forms ss) := by
  induction ss with
  | nil => trivial
  | cons s ss ih =>
      obtain ⟨hs, hss⟩ := List.forall_mem_cons.mp h
      exact ⟨hs.legible, ih hss⟩

theorem stmts_forms {ss : List (Stmt Unit)} (h : ∀ s ∈ ss, s.ReadsBack) :
    stmts (Stmt.forms ss) = Stmt.renumberAll (fun _ => 0) ss := by
  induction ss with
  | nil => rfl
  | cons s ss ih =>
      obtain ⟨hs, hss⟩ := List.forall_mem_cons.mp h
      rw [Stmt.forms, stmts, hs.back, ih hss]
      rfl

theorem legible_methods {ds : List (FunctionDecl Unit)} (h : ∀ d ∈ ds, d.ReadsBack) :
    LegibleAll (FunctionDecl.forms ds) := by
  induction ds with
  | nil => trivial
  | cons d ds ih =>
      obtain ⟨hd, hds⟩ := List.forall_mem_cons.mp h
      exact ⟨hd.legible, ih hds⟩

theorem methods_forms {ds : List (FunctionDecl Unit)} (h : ∀ d ∈ ds, d.ReadsBack) :
    (stmts (FunctionDecl.forms ds)).map readMethod =
      FunctionDecl.renumberAll (fun _ => 0) ds := by
  induction ds with
  | nil => rfl
  | cons d ds ih =>
      obtain ⟨hd, hds⟩ := List.forall_mem_cons.mp h
      rw [FunctionDecl.forms, stmts, hd.back, List.map_cons, ih hds]
      rfl

theorem legible_optional {value : Option (Expr Unit)} (h : ∀ e ∈ value, e.ReadsBack) :
    LegibleAll (optionalForms value) := by
  cases value with
  | none => trivial
  | some e => exact ⟨(h e rfl).legible, trivial⟩

theorem optional_forms {value : Option (Expr Unit)} (h : ∀ e ∈ value, e.ReadsBack) :
    (optionalForms value).head?.map expr = value.map (Expr.renumber fun _ => 0) := by
  cases value with
  | none => rfl
  | some e => exact congrArg some (h e rfl).back

theorem readWord_name {name : Token} (h : name.Name) :
    readWord (.word name.lexeme) = name.onLineZero :=
  h.ofLexeme

theorem map_readWord {names : List Token} (h : ∀ name ∈ names, name.Name) :
    (names.map fun name => Form.word name.lexeme).map readWord =
      names.map (Token.renumber fun _ => 0) := by
  rw [List.map_map]
  exact List.map_congr_left fun name hname => readWord_name (h name hname)

theorem legible_words {names : List Token} (h : ∀ name ∈ names, name.Name) :
    LegibleAll (names.map fun name => .word name.lexeme) := by
  induction names with
  | nil => trivial
  | cons name names ih =>
      obtain ⟨hname, hnames⟩ := List.forall_mem_cons.mp h
      exact ⟨hname.isWord, ih hnames⟩

theorem legible_params {names : List Token} (h : ∀ name ∈ names, name.Name) :
    (paramsForm names).Legible := by
  cases names with
  | nil => exact ⟨rfl, trivial⟩
  | cons name names =>
      obtain ⟨hname, hnames⟩ := List.forall_mem_cons.mp h
      exact ⟨hname.plain, legible_words hnames⟩

theorem readParams_form {names : List Token} (h : ∀ name ∈ names, name.Name) :
    readParams (paramsForm names) = names.map (Token.renumber fun _ => 0) := by
  cases names with
  | nil => rfl
  | cons name names =>
      obtain ⟨hname, hnames⟩ := List.forall_mem_cons.mp h
      obtain ⟨c, s, hlexeme, -⟩ := hname.spelled
      have hfirst := hname.ofLexeme
      rw [hlexeme] at hfirst
      rw [paramsForm, hlexeme, readParams, hfirst, map_readWord hnames]
      rfl

end Lists

/-! ### Nodes -/

section Nodes

open Form Token

variable {e condition : Expr Unit} {body yes no : Stmt Unit} {name keyword : Token}

theorem readsBack_exprStmt (h : e.ReadsBack) : (Stmt.expr e).ReadsBack := by
  have hhead : kindOf (bytes ";") = .semicolon := kindOf_of_mem_fixed (by decide)
  constructor
  · exact ⟨by decide, h.legible, trivial⟩
  · rw [Stmt.form, stmt_node hhead, readStatement, readFirst, h.back]
    rfl

theorem readsBack_print (h : e.ReadsBack) : (Stmt.print e).ReadsBack := by
  have hhead : kindOf (bytes "print") = .printWord := kindOf_of_mem_fixed (by decide)
  constructor
  · exact ⟨by decide, h.legible, trivial⟩
  · rw [Stmt.form, stmt_node hhead, readStatement, readFirst, h.back]
    rfl

theorem readsBack_return (hkeyword : keyword.Genuine) (hkind : keyword.kind = .returnWord)
    {value : Option (Expr Unit)} (h : ∀ e ∈ value, e.ReadsBack) :
    (Stmt.return keyword value).ReadsBack := by
  have htoken : Token.ofLexeme (bytes "return") = keyword.onLineZero :=
    onLineZero_of_fixed hkeyword (by rw [hkind]; decide)
  have hhead : kindOf (bytes "return") = .returnWord := kindOf_of_mem_fixed (by decide)
  constructor
  · exact ⟨by decide, legible_optional h⟩
  · rw [Stmt.form, stmt_node hhead, readStatement, htoken, optional_forms h]
    rfl

theorem readsBack_var (hname : name.Name) {init : Option (Expr Unit)}
    (h : ∀ e ∈ init, e.ReadsBack) : (Stmt.var name init).ReadsBack := by
  have hhead : kindOf (bytes "var") = .varWord := kindOf_of_mem_fixed (by decide)
  constructor
  · exact ⟨by decide, hname.isWord, legible_optional h⟩
  · rw [Stmt.form, stmt_node hhead, readStatement, List.headD_cons, readWord_name hname,
      List.tail_cons, optional_forms h]
    rfl

theorem readsBack_block {ss : List (Stmt Unit)} (h : ∀ s ∈ ss, s.ReadsBack) :
    (Stmt.block ss).ReadsBack := by
  have hhead : kindOf (bytes "block") = .identifier := kindOf_head (by decide)
  constructor
  · exact ⟨by decide, legible_stmts h⟩
  · rw [Stmt.form, stmt_node hhead, stmts_forms h]
    rfl

theorem readsBack_while (hcondition : condition.ReadsBack) (hbody : body.ReadsBack) :
    (Stmt.while condition body).ReadsBack := by
  have hhead : kindOf (bytes "while") = .whileWord := kindOf_of_mem_fixed (by decide)
  constructor
  · exact ⟨by decide, hcondition.legible, hbody.legible, trivial⟩
  · rw [Stmt.form, stmt_node hhead, readStatement, readFirst, hcondition.back]
    simp only [stmts, hbody.back]
    rfl

theorem readsBack_ifThen (hcondition : condition.ReadsBack) (hbody : body.ReadsBack) :
    (Stmt.ifThen condition body).ReadsBack := by
  have hhead : kindOf (bytes "if") = .ifWord := kindOf_of_mem_fixed (by decide)
  constructor
  · exact ⟨by decide, hcondition.legible, hbody.legible, trivial⟩
  · rw [Stmt.form, stmt_node hhead, readStatement, readFirst, hcondition.back]
    simp only [stmts, hbody.back]
    rfl

theorem readsBack_ifElse (hcondition : condition.ReadsBack) (hyes : yes.ReadsBack)
    (hno : no.ReadsBack) : (Stmt.ifElse condition yes no).ReadsBack := by
  have hhead : kindOf (bytes "if-else") = .identifier := kindOf_head (by decide)
  have hblock : bytes "if-else" ≠ bytes "block" := by decide
  constructor
  · exact ⟨by decide, hcondition.legible, hyes.legible, hno.legible, trivial⟩
  · rw [Stmt.form, stmt_node hhead]
    change readOther _ _ _ = _
    rw [readOther, if_neg hblock, readFirst, hcondition.back]
    simp only [stmts, hyes.back, hno.back]
    rfl

theorem readsBack_decl {names : List Token} {ss : List (Stmt Unit)} (hname : name.Name)
    (hnames : ∀ name ∈ names, name.Name) (hss : ∀ s ∈ ss, s.ReadsBack) :
    (FunctionDecl.mk name names ss).ReadsBack := by
  have hhead : kindOf (bytes "fun") = .funWord := kindOf_of_mem_fixed (by decide)
  constructor
  · exact ⟨by decide, hname.isWord, legible_params hnames, legible_stmts hss⟩
  · rw [FunctionDecl.form, stmt_node hhead]
    change Stmt.function ⟨readWord (.word name.lexeme), readParams (paramsForm names),
      stmts (Stmt.forms ss)⟩ = _
    rw [readWord_name hname, readParams_form hnames, stmts_forms hss]
    rfl

theorem readsBack_function {d : FunctionDecl Unit} (h : d.ReadsBack) :
    (Stmt.function d).ReadsBack :=
  ⟨h.legible, h.back⟩

theorem readsBack_class (hname : name.Name) {base : Option (Token × Unit)}
    (hbase : ∀ b ∈ base, b.1.Name) {ds : List (FunctionDecl Unit)} (hds : ∀ d ∈ ds, d.ReadsBack) :
    (Stmt.class name base ds).ReadsBack := by
  have hhead : kindOf (bytes "class") = .classWord := kindOf_of_mem_fixed (by decide)
  cases base with
  | none =>
      constructor
      · exact ⟨by decide, hname.isWord, legible_methods hds⟩
      · have hclass : readClass (.word name.lexeme :: FunctionDecl.forms ds)
            (stmts (.word name.lexeme :: FunctionDecl.forms ds)) =
            .class (.ofLexeme name.lexeme) none
              ((stmts (FunctionDecl.forms ds)).map readMethod) := by
          cases ds with
          | nil => rfl
          | cons d ds =>
              cases d
              rfl
        rw [Stmt.form, stmt_node hhead]
        change readClass (.word name.lexeme :: FunctionDecl.forms ds)
          (stmts (.word name.lexeme :: FunctionDecl.forms ds)) = _
        rw [hclass, hname.ofLexeme, methods_forms hds]
        rfl
  | some base =>
      have hmark : IsWord (bytes "<") := ⟨by decide, ⟨60, [], rfl, rfl⟩, by decide⟩
      constructor
      · exact ⟨by decide, hname.isWord, hmark, (hbase base rfl).isWord, legible_methods hds⟩
      · rw [Stmt.form, stmt_node hhead]
        change Stmt.class (.ofLexeme name.lexeme) (some (.ofLexeme base.1.lexeme, ()))
          ((stmts (FunctionDecl.forms ds)).map readMethod) = _
        rw [hname.ofLexeme, (hbase base rfl).ofLexeme, methods_forms hds]
        rfl

end Nodes

/-! ### Programs -/

namespace Grammar

open Form

theorem Optionally.readsBack {u : List Token} {value : Option (Expr Unit)}
    (h : Optionally Expression u value) (hu : ∀ t ∈ u, t.Genuine) :
    ∀ e ∈ value, e.ReadsBack := by
  cases h with
  | absent => exact fun _ h => nomatch h
  | present h =>
      rintro e ⟨⟩
      exact Expression.readsBack h hu

theorem ExpressionStatement.readsBack {u : List Token} {s : Stmt Unit}
    (h : ExpressionStatement u s) (hu : ∀ t ∈ u, t.Genuine) : s.ReadsBack := by
  obtain ⟨h, -⟩ := h
  rw [List.forall_mem_append] at hu
  exact readsBack_exprStmt (Expression.readsBack h hu.1)

theorem VariableDeclaration.readsBack {u : List Token} {s : Stmt Unit}
    (h : VariableDeclaration u s) (hu : ∀ t ∈ u, t.Genuine) : s.ReadsBack := by
  cases h with
  | plain _ hname _ =>
      simp only [List.forall_mem_cons] at hu
      exact readsBack_var ⟨hu.2.1, hname⟩ fun _ h => nomatch h
  | initialized _ hname _ h _ =>
      simp only [List.cons_append, List.forall_mem_cons, List.forall_mem_append] at hu
      refine readsBack_var ⟨hu.2.1, hname⟩ ?_
      rintro e ⟨⟩
      exact Expression.readsBack h hu.2.2.2.1

theorem Initializer.readsBack {u : List Token} {init : Option (Stmt Unit)} (h : Initializer u init)
    (hu : ∀ t ∈ u, t.Genuine) : ∀ s ∈ init, s.ReadsBack := by
  cases h with
  | absent _ => exact fun _ h => nomatch h
  | variableDecl h =>
      rintro s ⟨⟩
      exact h.readsBack hu
  | expressionStmt h =>
      rintro s ⟨⟩
      exact h.readsBack hu

theorem Superclass.name {u : List Token} {base : Option (Token × Unit)} (h : Superclass u base)
    (hu : ∀ t ∈ u, t.Genuine) : ∀ b ∈ base, b.1.Name := by
  cases h with
  | absent => exact fun _ h => nomatch h
  | present _ hname =>
      rintro b ⟨⟩
      simp only [List.forall_mem_cons] at hu
      exact ⟨hu.2.1, hname⟩

theorem Parameters.name {u names : List Token} (h : Parameters u names)
    (hu : ∀ t ∈ u, t.Genuine) : ∀ name ∈ names, name.Name := by
  cases h with
  | absent => exact List.forall_mem_nil _
  | present h hlimit =>
      clear hlimit
      induction h with
      | one h =>
          obtain ⟨rfl, hname⟩ := h
          exact List.forall_mem_singleton.mpr ⟨List.forall_mem_singleton.mp hu, hname⟩
      | more h _ _ ih =>
          obtain ⟨rfl, hname⟩ := h
          simp only [List.forall_mem_append, List.forall_mem_cons] at hu
          exact List.forall_mem_cons.mpr ⟨⟨hu.1.1, hname⟩, ih hu.2.2⟩

theorem readsBack_forTree {init : Option (Stmt Unit)} {condition increment : Option (Expr Unit)}
    {body : Stmt Unit} (hinit : ∀ s ∈ init, s.ReadsBack)
    (hcondition : ∀ e ∈ condition, e.ReadsBack) (hincrement : ∀ e ∈ increment, e.ReadsBack)
    (hbody : body.ReadsBack) : (forTree init condition increment body).ReadsBack := by
  have hround : (withIncrement increment body).ReadsBack := by
    cases increment with
    | none => exact hbody
    | some e =>
        have hlast := readsBack_exprStmt (hincrement e rfl)
        exact readsBack_block
          (List.forall_mem_cons.mpr ⟨hbody, List.forall_mem_singleton.mpr hlast⟩)
  have hloop : (whileTree condition (withIncrement increment body)).ReadsBack := by
    cases condition with
    | none => exact readsBack_while (readsBack_literal fun _ h => nomatch h) hround
    | some e => exact readsBack_while (hcondition e rfl) hround
  cases init with
  | none => exact hloop
  | some s =>
      exact readsBack_block
        (List.forall_mem_cons.mpr ⟨hinit s rfl, List.forall_mem_singleton.mpr hloop⟩)

def Clause.ReadsBack : (x : Clause) → x.Tree → Prop
  | .statement _ | .declaration => Stmt.ReadsBack
  | .declarations => fun ss => ∀ s ∈ ss, s.ReadsBack
  | .function => FunctionDecl.ReadsBack
  | .methods => fun ds => ∀ d ∈ ds, d.ReadsBack

/-- What is derived from tokens of a source is read back from its form. -/
theorem Clause.Derives.readsBack {nearest : Bool} {x : Clause} {u : List Token} {t : x.Tree}
    (h : x.Derives nearest u t) (hu : ∀ t ∈ u, t.Genuine) : x.ReadsBack t := by
  induction h with
  | exprStmt h => exact h.readsBack hu
  | printStmt _ h _ =>
      simp only [List.cons_append, List.forall_mem_cons, List.forall_mem_append] at hu
      exact readsBack_print (Expression.readsBack h hu.2.1)
  | returnStmt hkeyword h _ =>
      simp only [List.cons_append, List.forall_mem_cons, List.forall_mem_append] at hu
      exact readsBack_return hu.1 hkeyword (h.readsBack hu.2.1)
  | blockStmt _ _ _ ih =>
      simp only [List.cons_append, List.forall_mem_cons, List.forall_mem_append] at hu
      exact readsBack_block (ih hu.2.1)
  | whileStmt _ _ hcondition _ _ ih =>
      simp only [List.cons_append, List.forall_mem_cons, List.forall_mem_append] at hu
      exact readsBack_while (Expression.readsBack hcondition hu.2.2.1) (ih hu.2.2.2.2)
  | forStmt _ _ hinit hcondition _ hincrement _ _ ih =>
      simp only [List.cons_append, List.forall_mem_cons, List.forall_mem_append] at hu
      obtain ⟨-, -, ⟨⟨⟨hu, hv⟩, -, hw⟩, -, hx⟩⟩ := hu
      exact readsBack_forTree (hinit.readsBack hu) (hcondition.readsBack hv)
        (hincrement.readsBack hw) (ih hx)
  | ifThen _ _ hcondition _ _ ih =>
      simp only [List.cons_append, List.forall_mem_cons, List.forall_mem_append] at hu
      exact readsBack_ifThen (Expression.readsBack hcondition hu.2.2.1) (ih hu.2.2.2.2)
  | ifElse _ _ hcondition _ _ _ _ _ ihyes ihno =>
      simp only [List.cons_append, List.forall_mem_cons, List.forall_mem_append] at hu
      obtain ⟨-, -, ⟨hu, -, hyes⟩, -, hno⟩ := hu
      exact readsBack_ifElse (Expression.readsBack hcondition hu) (ihyes hyes) (ihno hno)
  | statementDecl _ ih => exact ih hu
  | variableDecl h => exact h.readsBack hu
  | functionDecl _ _ ih =>
      rw [List.forall_mem_cons] at hu
      exact readsBack_function (ih hu.2)
  | classDecl _ hname hsuperclass _ _ _ ih =>
      simp only [List.cons_append, List.forall_mem_cons, List.forall_mem_append] at hu
      obtain ⟨-, hwritten, ⟨hbase, -, hmethods⟩, -⟩ := hu
      exact readsBack_class ⟨hwritten, hname⟩ (hsuperclass.name hbase) (ih hmethods)
  | noDeclarations => exact List.forall_mem_nil _
  | declarations _ _ ih ihothers =>
      rw [List.forall_mem_append] at hu
      exact List.forall_mem_cons.mpr ⟨ih hu.1, ihothers hu.2⟩
  | function hname _ hparams _ _ _ _ ih =>
      simp only [List.cons_append, List.forall_mem_cons, List.forall_mem_append] at hu
      obtain ⟨hwritten, -, ⟨hlist, -, -, hbody⟩, -⟩ := hu
      exact readsBack_decl ⟨hwritten, hname⟩ (hparams.name hlist) (ih hbody)
  | noMethods => exact List.forall_mem_nil _
  | methods _ _ ih ihothers =>
      rw [List.forall_mem_append] at hu
      exact List.forall_mem_cons.mpr ⟨ih hu.1, ihothers hu.2⟩

end Grammar

end Lox
