import Lox.Proofs.Grammar.Statement
import Lox.Proofs.Resolution.WellFormed

/-!
# Trees of spelled tokens

The grammar tells keywords from names by their kinds alone. If the tokens are spelled as their kinds
say, every tree that the grammar derives from them is well formed.
-/

namespace Lox

open Resolution Grammar

/-- Names and the keywords with scopes of their own are spelled as such. -/
structure Token.Spelled (t : Token) : Prop where
  name : t.kind = .identifier → Plain t.lexeme
  this : t.kind = .thisWord → t.lexeme = thisName
  super : t.kind = .superWord → t.lexeme = superName

namespace Grammar

def Phrase.place : (x : Phrase) → x.Tree → Place
  | .level _, e => .expr e
  | .arguments, es => .arguments es

theorem wellFormed_expr {ctx : Context} {e : Expr Unit} (hfine : Place.FineExpr e)
    (h : ∀ p ∈ Place.operands e, Place.WellFormed ctx p) : Place.WellFormed ctx (.expr e) :=
  .mk hfine (by simpa [Place.next] using h)

theorem Chain.wellFormed_node {ctx : Context} (c : Chain) (operator : Token) {l r : Expr Unit}
    (hl : Place.WellFormed ctx (.expr l)) (hr : Place.WellFormed ctx (.expr r)) :
    Place.WellFormed ctx (.expr (c.node l operator r)) := by
  cases c <;> exact wellFormed_expr trivial (by simpa [Chain.node, Place.operands] using ⟨hl, hr⟩)

theorem Phrase.Derives.wellFormed {x : Phrase} {u : List Token} {e : x.Tree} (h : x.Derives u e)
    (hu : ∀ t ∈ u, t.Spelled) (ctx : Context) : Place.WellFormed ctx (x.place e) := by
  induction h with
  | assignName hname _ _ ih =>
      simp only [List.forall_mem_cons] at hu
      exact wellFormed_expr (hu.1.name hname) (by simpa [Phrase.place, Place.operands] using ih hu.2.2)
  | assignField _ _ _ _ _ ihobject ihvalue =>
      simp only [List.forall_mem_append, List.forall_mem_cons] at hu
      exact wellFormed_expr trivial
        (by simpa [Place.operands] using ⟨ihvalue hu.2.2.2.2, ihobject hu.1⟩)
  | noAssignment _ ih => exact ih hu
  | @operator c _ _ t _ _ _ _ _ ihleft ihright =>
      simp only [List.forall_mem_append, List.forall_mem_cons] at hu
      exact c.wellFormed_node t (ihleft hu.1) (ihright hu.2.2)
  | operand _ ih => exact ih hu
  | unary _ _ ih =>
      simp only [List.forall_mem_cons] at hu
      exact wellFormed_expr trivial (by simpa [Phrase.place, Place.operands] using ih hu.2)
  | noUnary _ ih => exact ih hu
  | callNothing _ _ _ ih =>
      simp only [List.forall_mem_append] at hu
      have hnone : Place.WellFormed ctx (.arguments []) := .mk trivial (by simp [Place.next])
      exact wellFormed_expr trivial (by simpa [Place.operands] using ⟨ih hu.1, hnone⟩)
  | callWith _ _ _ _ _ ih iharguments =>
      simp only [List.forall_mem_append, List.forall_mem_cons] at hu
      exact wellFormed_expr trivial
        (by simpa [Place.operands] using ⟨ih hu.1.1, iharguments hu.1.2.2⟩)
  | get _ _ _ ih =>
      simp only [List.forall_mem_append] at hu
      exact wellFormed_expr trivial (by simpa [Phrase.place, Place.operands] using ih hu.1)
  | noCall _ ih => exact ih hu
  | this h =>
      simp only [List.forall_mem_singleton] at hu
      exact wellFormed_expr (hu.this h) (by simp [Place.operands])
  | super hkeyword _ _ =>
      simp only [List.forall_mem_cons] at hu
      exact wellFormed_expr (hu.1.super hkeyword) (by simp [Place.operands])
  | group _ _ _ ih =>
      simp only [List.forall_mem_append, List.forall_mem_cons] at hu
      exact wellFormed_expr trivial (by simpa [Phrase.place, Place.operands] using ih hu.1.2)
  | falseWord _ | trueWord _ | nilWord _ | literal _ | name _ =>
      exact wellFormed_expr trivial (by simp [Place.operands])
  | argument _ ih =>
      have hnone : Place.WellFormed ctx (.arguments []) := .mk trivial (by simp [Place.next])
      exact .mk trivial (by simpa [Phrase.place, Place.next] using ⟨ih hu, hnone⟩)
  | arguments _ _ _ ih ihothers =>
      simp only [List.forall_mem_append, List.forall_mem_cons] at hu
      exact .mk trivial (by simpa [Phrase.place, Place.next] using ⟨ih hu.1, ihothers hu.2.2⟩)

theorem Expression.wellFormed {u : List Token} {e : Expr Unit} (h : Expression u e)
    (hu : ∀ t ∈ u, t.Spelled) (ctx : Context) : Place.WellFormed ctx (.expr e) :=
  Phrase.Derives.wellFormed h hu ctx

/-! ### Statements -/

/-- A statement in which every context is well formed and that declares nothing around it. -/
def FineStatement (s : Stmt Unit) : Prop :=
  Stays s ∧ ∀ ctx, Place.WellFormed ctx (.stmt s)

def Clause.Fine : (x : Clause) → x.Tree → Prop
  | .statement _, s => FineStatement s
  | .declaration, s => ∀ ctx, Place.WellFormed ctx (.stmt s)
  | .declarations, ss => ∀ ctx, Place.WellFormed ctx (.stmts ss)
  | .function, d => ∀ ctx kind, Place.WellFormed ctx (.function kind d)
  | .methods, ds => ∀ ctx, Place.WellFormed ctx (.methods ds)

theorem wellFormed_stmt {ctx : Context} {s : Stmt Unit} (hfine : Place.FineStmt s)
    (h : ∀ c ∈ Place.parts ctx s, Place.WellFormed c.1 c.2) : Place.WellFormed ctx (.stmt s) :=
  .mk hfine h

theorem wellFormed_expr? {ctx : Context} {u : List Token} {value : Option (Expr Unit)}
    (h : Optionally Expression u value) (hu : ∀ t ∈ u, t.Spelled) :
    ∀ c ∈ Place.expr? ctx value, Place.WellFormed c.1 c.2 := by
  cases h with
  | absent => simp [Place.expr?]
  | present h => simpa [Place.expr?] using h.wellFormed hu ctx

theorem ExpressionStatement.fine {u : List Token} {s : Stmt Unit} (h : ExpressionStatement u s)
    (hu : ∀ t ∈ u, t.Spelled) : FineStatement s := by
  obtain ⟨h, -⟩ := h
  simp only [List.forall_mem_append] at hu
  refine ⟨fun _ => rfl, fun ctx => wellFormed_stmt trivial ?_⟩
  simpa [Place.parts] using Expression.wellFormed h hu.1 ctx

theorem VariableDeclaration.wellFormed {u : List Token} {s : Stmt Unit}
    (h : VariableDeclaration u s) (hu : ∀ t ∈ u, t.Spelled) (ctx : Context) :
    Place.WellFormed ctx (.stmt s) := by
  cases h with
  | plain _ hname _ =>
      simp only [List.forall_mem_cons] at hu
      exact wellFormed_stmt (hu.2.1.name hname) (by simp [Place.parts, Place.expr?])
  | initialized _ hname _ h _ =>
      simp only [List.forall_mem_append, List.forall_mem_cons] at hu
      refine wellFormed_stmt (hu.1.2.1.name hname) ?_
      simpa [Place.parts, Place.expr?] using Expression.wellFormed h hu.1.2.2.2 _

theorem wellFormed_nil (ctx : Context) : Place.WellFormed ctx (.stmts []) :=
  .mk trivial (by simp [Place.next])

theorem wellFormed_cons {s : Stmt Unit} {ss : List (Stmt Unit)} {ctx : Context}
    (h : Place.WellFormed ctx (.stmt s)) (hothers : Place.WellFormed (ctx.after s) (.stmts ss)) :
    Place.WellFormed ctx (.stmts (s :: ss)) :=
  .mk trivial (by simpa [Place.next] using ⟨h, hothers⟩)

theorem fine_block {body : List (Stmt Unit)} (h : ∀ ctx, Place.WellFormed ctx (.stmts body)) :
    FineStatement (.block body) :=
  ⟨fun _ => rfl, fun ctx => wellFormed_stmt trivial (by simpa [Place.parts] using h _)⟩

theorem fine_while {condition : Expr Unit} {body : Stmt Unit}
    (hcondition : ∀ ctx, Place.WellFormed ctx (.expr condition)) (hbody : FineStatement body) :
    FineStatement (.while condition body) := by
  refine ⟨hbody.1, fun ctx => wellFormed_stmt hbody.1 ?_⟩
  simpa [Place.parts] using ⟨hcondition ctx, hbody.2 ctx⟩

theorem wellFormed_literal (v : Literal) (ctx : Context) : Place.WellFormed ctx (.expr (.literal v)) :=
  wellFormed_expr trivial (by simp [Place.operands])

theorem fine_whileTree {u : List Token} {condition : Option (Expr Unit)} {body : Stmt Unit}
    (hcondition : Optionally Expression u condition) (hu : ∀ t ∈ u, t.Spelled)
    (hbody : FineStatement body) : FineStatement (whileTree condition body) := by
  cases hcondition with
  | absent => exact fine_while (wellFormed_literal _) hbody
  | present h => exact fine_while (h.wellFormed hu) hbody

theorem fine_withIncrement {u : List Token} {increment : Option (Expr Unit)} {body : Stmt Unit}
    (hincrement : Optionally Expression u increment) (hu : ∀ t ∈ u, t.Spelled)
    (hbody : FineStatement body) : FineStatement (withIncrement increment body) := by
  cases hincrement with
  | absent => exact hbody
  | present h =>
      refine fine_block fun ctx => wellFormed_cons (hbody.2 ctx) ?_
      refine wellFormed_cons (wellFormed_stmt trivial ?_) (wellFormed_nil _)
      simpa [Place.parts] using h.wellFormed hu _

theorem fine_withInitializer {u : List Token} {init : Option (Stmt Unit)} {loop : Stmt Unit}
    (hinit : Initializer u init) (hu : ∀ t ∈ u, t.Spelled) (hloop : FineStatement loop) :
    FineStatement (withInitializer init loop) := by
  have hblock {s : Stmt Unit} (hs : ∀ ctx, Place.WellFormed ctx (.stmt s)) :
      FineStatement (.block [s, loop]) :=
    fine_block fun ctx =>
      wellFormed_cons (hs ctx) (wellFormed_cons (hloop.2 _) (wellFormed_nil _))
  cases hinit with
  | absent _ => exact hloop
  | variableDecl h => exact hblock (h.wellFormed hu)
  | expressionStmt h => exact hblock (h.fine hu).2

theorem Parameter.plain {u : List Token} {name : Token} (h : Parameter u name)
    (hu : ∀ t ∈ u, t.Spelled) : Plain name.lexeme := by
  obtain ⟨rfl, hname⟩ := h
  exact (hu name List.mem_cons_self).name hname

theorem Parameters.plain {u params : List Token} (h : Parameters u params)
    (hu : ∀ t ∈ u, t.Spelled) : ∀ param ∈ params, Plain param.lexeme := by
  cases h with
  | absent => simp
  | present h hlimit =>
      clear hlimit
      induction h with
      | one h => simpa using h.plain hu
      | more h _ _ ih =>
          simp only [List.forall_mem_append, List.forall_mem_cons] at hu ⊢
          exact ⟨h.plain hu.1, ih hu.2.2⟩

theorem Clause.Derives.fine {nearest : Bool} {x : Clause} {u : List Token} {t : x.Tree}
    (h : x.Derives nearest u t) (hu : ∀ t ∈ u, t.Spelled) : x.Fine t := by
  induction h with
  | exprStmt h => exact h.fine hu
  | printStmt _ h _ =>
      simp only [List.forall_mem_append, List.forall_mem_cons] at hu
      refine ⟨fun _ => rfl, fun ctx => wellFormed_stmt trivial ?_⟩
      simpa [Place.parts] using Expression.wellFormed h hu.1.2 ctx
  | returnStmt _ h _ =>
      simp only [List.forall_mem_append, List.forall_mem_cons] at hu
      exact ⟨fun _ => rfl, fun ctx => wellFormed_stmt trivial (wellFormed_expr? h hu.1.2)⟩
  | blockStmt _ _ _ ih =>
      simp only [List.forall_mem_append, List.forall_mem_cons] at hu
      exact fine_block (ih hu.1.2)
  | whileStmt _ _ hcondition _ _ ih =>
      simp only [List.forall_mem_append, List.forall_mem_cons] at hu
      exact fine_while (Expression.wellFormed hcondition hu.1.2.2) (ih hu.2.2)
  | forStmt _ _ hinit hcondition _ hincrement _ _ ih =>
      simp only [List.forall_mem_append, List.forall_mem_cons] at hu
      obtain ⟨⟨⟨⟨-, -, hu₁⟩, hu₂⟩, -, hu₃⟩, -, hu₄⟩ := hu
      exact fine_withInitializer hinit hu₁
        (fine_whileTree hcondition hu₂ (fine_withIncrement hincrement hu₃ (ih hu₄)))
  | ifThen _ _ hcondition _ _ ih =>
      simp only [List.forall_mem_append, List.forall_mem_cons] at hu
      have hbody := ih hu.2.2
      refine ⟨hbody.1, fun ctx => wellFormed_stmt hbody.1 ?_⟩
      simpa [Place.parts] using
        ⟨Expression.wellFormed hcondition hu.1.2.2 ctx, hbody.2 ctx⟩
  | ifElse _ _ hcondition _ _ _ _ _ ihyes ihno =>
      simp only [List.forall_mem_append, List.forall_mem_cons] at hu
      have hyes := ihyes hu.1.2.2
      have hno := ihno hu.2.2
      refine ⟨fun ctx => ?_, fun ctx => wellFormed_stmt ⟨hyes.1, hno.1⟩ ?_⟩
      · rw [Context.after, hyes.1 ctx]
        exact hno.1 ctx
      · simpa [Place.parts] using
          ⟨Expression.wellFormed hcondition hu.1.1.2.2 ctx, hyes.2 ctx, hno.2 _⟩
  | statementDecl _ ih => exact (ih hu).2
  | variableDecl h => exact h.wellFormed hu
  | functionDecl _ h ih =>
      simp only [List.forall_mem_cons] at hu
      have hd := ih hu.2
      cases h with
      | function hname _ _ _ _ _ _ =>
          simp only [List.forall_mem_append, List.forall_mem_cons] at hu
          refine fun ctx => wellFormed_stmt (hu.2.1.1.1.name hname) ?_
          simpa [Place.parts] using hd _ _
  | classDecl _ hname hsuperclass _ _ _ ih =>
      simp only [List.forall_mem_append, List.forall_mem_cons] at hu
      refine fun ctx => wellFormed_stmt (hu.1.1.2.1.name hname) ?_
      simp only [Place.parts, List.forall_mem_append, List.forall_mem_singleton]
      refine ⟨?_, ih hu.1.2.2 _⟩
      cases hsuperclass with
      | absent => simp [Place.superclass]
      | present _ _ =>
          simpa [Place.superclass] using
            wellFormed_expr (e := .read _ ()) trivial (by simp [Place.operands])
  | noDeclarations => exact fun ctx => wellFormed_nil ctx
  | declarations _ _ ih ihothers =>
      simp only [List.forall_mem_append] at hu
      exact fun ctx => wellFormed_cons (ih hu.1 ctx) (ihothers hu.2 _)
  | function _ _ hparams _ _ _ _ ih =>
      simp only [List.forall_mem_append, List.forall_mem_cons] at hu
      refine fun ctx kind => .mk (hparams.plain hu.1.1.2.2) ?_
      simpa [Place.next] using ih hu.1.2.2.2 _
  | noMethods => exact fun ctx => .mk trivial (by simp [Place.next])
  | methods _ _ ih ihothers =>
      simp only [List.forall_mem_append] at hu
      exact fun ctx => .mk trivial (by simpa [Place.next] using ⟨ih hu.1 _ _, ihothers hu.2 _⟩)

end Grammar

end Lox
