import Lox.Proofs.Parser.Accepts
import Lox.Proofs.Renaming.Respelled

/-!
# The grammar with names respelled

Rules of the grammar name kinds of tokens only. A tree in which names are respelled is therefore
derived from the tokens in which they are respelled.
-/

namespace Lox.Grammar

variable {r : Renaming}

/-- The tokens are those of the list, but names may be respelled. -/
abbrev RespelledTokens (r : Renaming) (u u' : List Token) : Prop :=
  List.Forall₂ r.Respells u u'

theorem RespelledTokens.refl (u : List Token) : RespelledTokens r u u :=
  List.forall₂_same.mpr fun _ _ => .inl rfl

theorem RespelledTokens.append {u u' w w' : List Token} (h : RespelledTokens r u u')
    (h' : RespelledTokens r w w') : RespelledTokens r (u ++ w) (u' ++ w') :=
  List.rel_append h h'

/-- Tokens that are no names stay. -/
theorem RespelledTokens.cons_same {u u' : List Token} (t : Token) (h : RespelledTokens r u u') :
    RespelledTokens r (t :: u) (t :: u') :=
  .cons (.inl rfl) h

/-! ### Expressions -/

def Phrase.Respelled (r : Renaming) (marks : List Bool) : (x : Phrase) → x.Tree → x.Tree → Prop
  | .level _ => Expr.Respelled r.loose marks
  | .arguments => List.Forall₂ (Expr.Respelled r.loose marks)

theorem Chain.respelled_node {marks : List Bool} {c : Chain} {l e : Expr Unit} {t : Token}
    {tree : Expr Unit} (h : (c.node l t e).Respelled r.loose marks tree) :
    ∃ l' e', tree = c.node l' t e' ∧ l.Respelled r.loose marks l' ∧
      e.Respelled r.loose marks e' := by
  cases c <;> cases h <;> exact ⟨_, _, rfl, ‹_›, ‹_›⟩

theorem Phrase.Derives.respelled {x : Phrase} {u : List Token} {e : x.Tree} (h : x.Derives u e)
    {marks : List Bool} {e' : x.Tree} (he : x.Respelled r marks e e') :
    ∃ u', RespelledTokens r u u' ∧ x.Derives u' e' := by
  induction h with
  | assignName hname hequal _ ih =>
      cases he with
      | assign huse hvalue =>
          obtain ⟨w, hw, hderives⟩ := ih hvalue
          exact ⟨_, .cons huse (RespelledTokens.cons_same _ hw),
            .assignName (huse.kind.trans hname) hequal hderives⟩
  | assignField _ hdot hname hequal _ ihobject ihvalue =>
      cases he with
      | set hobject hvalue =>
          obtain ⟨u', hu', hleft⟩ := ihobject hobject
          obtain ⟨w', hw', hright⟩ := ihvalue hvalue
          exact ⟨_, hu'.append (.cons_same _ (.cons_same _ (.cons_same _ hw'))),
            .assignField hleft hdot hname hequal hright⟩
  | noAssignment _ ih =>
      obtain ⟨u', hu', hderives⟩ := ih he
      exact ⟨u', hu', .noAssignment hderives⟩
  | operator _ hoperator _ ihleft ihright =>
      obtain ⟨l', e', rfl, hl, he⟩ := Chain.respelled_node he
      obtain ⟨u', hu', hleft⟩ := ihleft hl
      obtain ⟨w', hw', hright⟩ := ihright he
      exact ⟨_, hu'.append (.cons_same _ hw'), .operator hleft hoperator hright⟩
  | operand _ ih =>
      obtain ⟨u', hu', hderives⟩ := ih he
      exact ⟨u', hu', .operand hderives⟩
  | unary hoperator _ ih =>
      cases he with
      | unary hoperand =>
          obtain ⟨u', hu', hderives⟩ := ih hoperand
          exact ⟨_, .cons_same _ hu', .unary hoperator hderives⟩
  | noUnary _ ih =>
      obtain ⟨u', hu', hderives⟩ := ih he
      exact ⟨u', hu', .noUnary hderives⟩
  | callNothing _ hleft hright ih =>
      cases he with
      | call hcallee harguments =>
          cases harguments
          obtain ⟨u', hu', hderives⟩ := ih hcallee
          exact ⟨_, hu'.append (.refl _), .callNothing hderives hleft hright⟩
  | callWith _ hleft _ hlimit hright ihcallee iharguments =>
      cases he with
      | call hcallee harguments =>
          obtain ⟨u', hu', hderives⟩ := ihcallee hcallee
          obtain ⟨w', hw', hothers⟩ := iharguments harguments
          have hsame := harguments.length_eq
          exact ⟨_, (hu'.append (.cons_same _ hw')).append (.refl _),
            .callWith hderives hleft hothers (hsame ▸ hlimit) hright⟩
  | get _ hdot hname ih =>
      cases he with
      | get hobject =>
          obtain ⟨u', hu', hderives⟩ := ih hobject
          exact ⟨_, hu'.append (.refl _), .get hderives hdot hname⟩
  | noCall _ ih =>
      obtain ⟨u', hu', hderives⟩ := ih he
      exact ⟨u', hu', .noCall hderives⟩
  | falseWord h =>
      cases he
      exact ⟨_, .refl _, .falseWord h⟩
  | trueWord h =>
      cases he
      exact ⟨_, .refl _, .trueWord h⟩
  | nilWord h =>
      cases he
      exact ⟨_, .refl _, .nilWord h⟩
  | this h =>
      cases he
      exact ⟨_, .refl _, .this h⟩
  | literal h =>
      cases he
      exact ⟨_, .refl _, .literal h⟩
  | name h =>
      cases he with
      | read huse => exact ⟨_, .cons huse .nil, .name (huse.kind.trans h)⟩
  | group hleft _ hright ih =>
      cases he with
      | group hinner =>
          obtain ⟨u', hu', hderives⟩ := ih hinner
          exact ⟨_, RespelledTokens.append (.cons_same _ hu') (.refl _),
            .group hleft hderives hright⟩
  | super hkeyword hdot hmethod =>
      cases he
      exact ⟨_, .refl _, .super hkeyword hdot hmethod⟩
  | argument _ ih =>
      cases he with
      | cons he hnone =>
          cases hnone
          obtain ⟨u', hu', hderives⟩ := ih he
          exact ⟨u', hu', .argument hderives⟩
  | arguments _ hcomma _ ih ihothers =>
      cases he with
      | cons he hothers =>
          obtain ⟨u', hu', hderives⟩ := ih he
          obtain ⟨w', hw', hmore⟩ := ihothers hothers
          exact ⟨_, hu'.append (.cons_same _ hw'), .arguments hderives hcomma hmore⟩

theorem Expression.respelled {u : List Token} {e e' : Expr Unit} (h : Expression u e)
    {marks : List Bool} (he : e.Respelled r.loose marks e') :
    ∃ u', RespelledTokens r u u' ∧ Expression u' e' :=
  Phrase.Derives.respelled h he

/-! ### Parts of statements -/

theorem Optionally.respelled {u : List Token} {e e' : Option (Expr Unit)}
    (h : Optionally Expression u e) {marks : List Bool}
    (he : Expr.RespelledOf r.loose marks e e') :
    ∃ u', RespelledTokens r u u' ∧ Optionally Expression u' e' := by
  cases h with
  | absent =>
      cases he
      exact ⟨[], .nil, .absent⟩
  | present h =>
      cases he with
      | some he =>
          obtain ⟨u', hu', hderives⟩ := Expression.respelled h he
          exact ⟨u', hu', .present hderives⟩

theorem ExpressionStatement.respelled {u : List Token} {s s' : Stmt Unit}
    (h : ExpressionStatement u s) {marks : List Bool} (hs : s.Respelled r.loose marks s') :
    ∃ u', RespelledTokens r u u' ∧ ExpressionStatement u' s' := by
  obtain ⟨h, hend⟩ := h
  cases hs with
  | expr he =>
      obtain ⟨u', hu', hderives⟩ := Expression.respelled h he
      exact ⟨_, hu'.append (.refl _), .mk hderives hend⟩

theorem VariableDeclaration.respelled {u : List Token} {s s' : Stmt Unit}
    (h : VariableDeclaration u s) {marks : List Bool} (hs : s.Respelled r.loose marks s') :
    ∃ u', RespelledTokens r u u' ∧ VariableDeclaration u' s' := by
  cases h with
  | plain hkeyword hname hend =>
      cases hs with
      | var hbinder hinit =>
          cases hinit
          exact ⟨_, RespelledTokens.cons_same _ (.cons hbinder (RespelledTokens.refl _)),
            .plain hkeyword (hbinder.kind.trans hname) hend⟩
  | initialized hkeyword hname hequal h hend =>
      cases hs with
      | var hbinder hinit =>
          cases hinit with
          | some he =>
              obtain ⟨u', hu', hderives⟩ := Expression.respelled h he
              exact ⟨_, RespelledTokens.append
                (.cons_same _ (.cons hbinder (RespelledTokens.cons_same _ hu'))) (.refl _),
                .initialized hkeyword (hbinder.kind.trans hname) hequal hderives hend⟩

theorem Initializer.respelled {u : List Token} {s s' : Option (Stmt Unit)} (h : Initializer u s)
    {marks : List Bool} (hs : Option.Rel (Stmt.Respelled r.loose marks) s s') :
    ∃ u', RespelledTokens r u u' ∧ Initializer u' s' := by
  cases h with
  | absent hend =>
      cases hs
      exact ⟨_, .refl _, .absent hend⟩
  | variableDecl h =>
      cases hs with
      | some hs =>
          obtain ⟨u', hu', hderives⟩ := h.respelled hs
          exact ⟨u', hu', .variableDecl hderives⟩
  | expressionStmt h =>
      cases hs with
      | some hs =>
          obtain ⟨u', hu', hderives⟩ := h.respelled hs
          exact ⟨u', hu', .expressionStmt hderives⟩

theorem Superclass.respelled {u : List Token} {base base' : Option (Token × Unit)}
    (h : Superclass u base) {marks : List Bool} (hbase : RespelledBase r.loose marks base base') :
    ∃ u', RespelledTokens r u u' ∧ Superclass u' base' := by
  cases h with
  | absent =>
      cases hbase
      exact ⟨[], .nil, .absent⟩
  | present hless hname =>
      cases hbase with
      | some huse =>
          exact ⟨_, RespelledTokens.cons_same _ (.cons huse .nil),
            .present hless (huse.kind.trans hname)⟩

theorem Separated.respelled {u names names' : List Token} (h : Separated Parameter u names)
    (hnames : RespelledTokens r names names') :
    ∃ u', RespelledTokens r u u' ∧ Separated Parameter u' names' := by
  induction h generalizing names' with
  | one h =>
      obtain ⟨rfl, hname⟩ := h
      cases hnames with
      | cons hbinder hnone =>
          cases hnone
          exact ⟨_, .cons hbinder .nil, .one ⟨rfl, hbinder.kind.trans hname⟩⟩
  | more h hcomma _ ih =>
      obtain ⟨rfl, hname⟩ := h
      cases hnames with
      | cons hbinder hothers =>
          obtain ⟨w', hw', hderives⟩ := ih hothers
          exact ⟨_, RespelledTokens.append (.cons hbinder .nil) (.cons_same _ hw'),
            .more ⟨rfl, hbinder.kind.trans hname⟩ hcomma hderives⟩

theorem Parameters.respelled {u names names' : List Token} (h : Parameters u names)
    (hnames : RespelledTokens r names names') :
    ∃ u', RespelledTokens r u u' ∧ Parameters u' names' := by
  cases h with
  | absent =>
      cases hnames
      exact ⟨[], .nil, .absent⟩
  | present h hlimit =>
      obtain ⟨u', hu', hderives⟩ := h.respelled hnames
      exact ⟨u', hu', .present hderives (hnames.length_eq ▸ hlimit)⟩

/-! ### Loops with clauses -/

section Loops

variable {marks : List Bool} {s' : Stmt Unit}

theorem respelled_withInitializer {init : Option (Stmt Unit)} {loop : Stmt Unit}
    (h : (withInitializer init loop).Respelled r.loose marks s') :
    ∃ init' loop' inner, s' = withInitializer init' loop' ∧
      Option.Rel (Stmt.Respelled r.loose inner) init init' ∧ loop.Respelled r.loose inner loop' := by
  cases init with
  | none => exact ⟨none, s', marks, rfl, .none, h⟩
  | some s =>
      cases h with
      | block hbody =>
          cases hbody with
          | cons hs hrest =>
              cases hrest with
              | cons hloop hnone =>
                  cases hnone
                  exact ⟨some _, _, _, rfl, .some hs, hloop⟩

theorem respelled_whileTree {condition : Option (Expr Unit)} {body : Stmt Unit}
    (h : (whileTree condition body).Respelled r.loose marks s') :
    ∃ condition' body', s' = whileTree condition' body' ∧
      Expr.RespelledOf r.loose marks condition condition' ∧ body.Respelled r.loose marks body' := by
  cases condition with
  | none =>
      cases h with
      | «while» hcondition hbody =>
          cases hcondition
          exact ⟨none, _, rfl, .none, hbody⟩
  | some condition =>
      cases h with
      | «while» hcondition hbody => exact ⟨some _, _, rfl, .some hcondition, hbody⟩

theorem respelled_withIncrement {increment : Option (Expr Unit)} {body : Stmt Unit}
    (h : (withIncrement increment body).Respelled r.loose marks s') :
    ∃ increment' body' inner, s' = withIncrement increment' body' ∧
      Expr.RespelledOf r.loose inner increment increment' ∧ body.Respelled r.loose inner body' := by
  cases increment with
  | none => exact ⟨none, s', marks, rfl, .none, h⟩
  | some e =>
      cases h with
      | block hbody =>
          cases hbody with
          | cons hs hrest =>
              cases hrest with
              | cons hincrement hnone =>
                  cases hnone
                  cases hincrement with
                  | expr he => exact ⟨some _, _, _, rfl, .some he, hs⟩

end Loops

/-! ### Statements and declarations -/

def Clause.Respelled (r : Renaming) (marks : List Bool) : (x : Clause) → x.Tree → x.Tree → Prop
  | .statement _ => Stmt.Respelled r.loose marks
  | .declaration => Stmt.Respelled r.loose marks
  | .declarations => Stmt.RespelledAll r.loose marks
  | .function => FunctionDecl.Respelled r.loose marks
  | .methods => FunctionDecl.RespelledAll r.loose marks

theorem Clause.Derives.respelled {nearest : Bool} {x : Clause} {u : List Token} {s : x.Tree}
    (h : x.Derives nearest u s) {marks : List Bool} {s' : x.Tree} (hs : x.Respelled r marks s s') :
    ∃ u', RespelledTokens r u u' ∧ x.Derives nearest u' s' := by
  induction h generalizing marks with
  | exprStmt h =>
      obtain ⟨u', hu', hderives⟩ := h.respelled hs
      exact ⟨u', hu', .exprStmt hderives⟩
  | printStmt hkeyword h hend =>
      cases hs with
      | print he =>
          obtain ⟨u', hu', hderives⟩ := Expression.respelled h he
          exact ⟨_, RespelledTokens.append (.cons_same _ hu') (.refl _),
            .printStmt hkeyword hderives hend⟩
  | returnStmt hkeyword h hend =>
      cases hs with
      | «return» hvalue =>
          obtain ⟨u', hu', hderives⟩ := h.respelled hvalue
          exact ⟨_, RespelledTokens.append (.cons_same _ hu') (.refl _),
            .returnStmt hkeyword hderives hend⟩
  | blockStmt hleft _ hright ih =>
      cases hs with
      | block hbody =>
          obtain ⟨u', hu', hderives⟩ := ih hbody
          exact ⟨_, RespelledTokens.append (.cons_same _ hu') (.refl _),
            .blockStmt hleft hderives hright⟩
  | whileStmt hkeyword hleft hcondition hright _ ih =>
      cases hs with
      | «while» he hbody =>
          obtain ⟨u', hu', hderives⟩ := Expression.respelled hcondition he
          obtain ⟨w', hw', hinside⟩ := ih hbody
          exact ⟨_, RespelledTokens.append (.cons_same _ (.cons_same _ hu')) (.cons_same _ hw'),
            .whileStmt hkeyword hleft hderives hright hinside⟩
  | forStmt hkeyword hleft hinit hcondition hend hincrement hright _ ih =>
      obtain ⟨init', loop', _, rfl, hinit', hloop⟩ := respelled_withInitializer hs
      obtain ⟨condition', inner', rfl, hcondition', hinner⟩ := respelled_whileTree hloop
      obtain ⟨increment', body', _, rfl, hincrement', hbody⟩ := respelled_withIncrement hinner
      obtain ⟨u', hu', hstart⟩ := hinit.respelled hinit'
      obtain ⟨v', hv', htest⟩ := hcondition.respelled hcondition'
      obtain ⟨w', hw', hstep⟩ := hincrement.respelled hincrement'
      obtain ⟨x', hx', hinside⟩ := ih hbody
      exact ⟨_, RespelledTokens.append (RespelledTokens.append (RespelledTokens.append
          (.cons_same _ (.cons_same _ hu')) hv') (.cons_same _ hw')) (.cons_same _ hx'),
        .forStmt hkeyword hleft hstart htest hend hstep hright hinside⟩
  | ifThen hkeyword hleft hcondition hright _ ih =>
      cases hs with
      | ifThen he hbody =>
          obtain ⟨u', hu', hderives⟩ := Expression.respelled hcondition he
          obtain ⟨w', hw', hinside⟩ := ih hbody
          exact ⟨_, RespelledTokens.append (.cons_same _ (.cons_same _ hu')) (.cons_same _ hw'),
            .ifThen hkeyword hleft hderives hright hinside⟩
  | ifElse hkeyword hleft hcondition hright _ hnearest hother _ ihyes ihno =>
      cases hs with
      | ifElse he hyes hno =>
          obtain ⟨u', hu', hderives⟩ := Expression.respelled hcondition he
          obtain ⟨w', hw', hthen⟩ := ihyes hyes
          obtain ⟨x', hx', helse⟩ := ihno hno
          exact ⟨_, RespelledTokens.append (RespelledTokens.append
            (.cons_same _ (.cons_same _ hu')) (.cons_same _ hw')) (.cons_same _ hx'),
            .ifElse hkeyword hleft hderives hright hthen hnearest hother helse⟩
  | statementDecl _ ih =>
      obtain ⟨u', hu', hderives⟩ := ih hs
      exact ⟨u', hu', .statementDecl hderives⟩
  | variableDecl h =>
      obtain ⟨u', hu', hderives⟩ := h.respelled hs
      exact ⟨u', hu', .variableDecl hderives⟩
  | functionDecl hkeyword _ ih =>
      cases hs with
      | function _ hdecl =>
          obtain ⟨u', hu', hderives⟩ := ih hdecl
          exact ⟨_, .cons_same _ hu', .functionDecl hkeyword hderives⟩
  | classDecl hkeyword hname hsuperclass hleft _ hright ih =>
      cases hs with
      | «class» _ hbase hmethods =>
          obtain ⟨u', hu', hbase'⟩ := hsuperclass.respelled hbase
          obtain ⟨w', hw', hinside⟩ := ih hmethods
          exact ⟨_, RespelledTokens.append (RespelledTokens.append
            (.cons_same _ (.cons_same _ hu')) (.cons_same _ hw')) (.refl _),
            .classDecl hkeyword hname hbase' hleft hinside hright⟩
  | noDeclarations =>
      cases hs
      exact ⟨[], .nil, .noDeclarations⟩
  | declarations _ _ ih ihothers =>
      cases hs with
      | cons hs hothers =>
          obtain ⟨u', hu', hderives⟩ := ih hs
          obtain ⟨w', hw', hmore⟩ := ihothers hothers
          exact ⟨_, hu'.append hw', .declarations hderives hmore⟩
  | function hname hleft hparams hright hopening _ hclosing ih =>
      cases hs with
      | mk hbinders hbody =>
          obtain ⟨u', hu', hparams'⟩ := hparams.respelled hbinders
          obtain ⟨w', hw', hinside⟩ := ih hbody
          exact ⟨_, RespelledTokens.append (RespelledTokens.append
            (.cons_same _ (.cons_same _ hu')) (.cons_same _ (.cons_same _ hw'))) (.refl _),
            .function hname hleft hparams' hright hopening hinside hclosing⟩
  | noMethods =>
      cases hs
      exact ⟨[], .nil, .noMethods⟩
  | methods _ _ ih ihothers =>
      cases hs with
      | cons hd hothers =>
          obtain ⟨u', hu', hderives⟩ := ih hd
          obtain ⟨w', hw', hmore⟩ := ihothers hothers
          exact ⟨_, hu'.append hw', .methods hderives hmore⟩

end Lox.Grammar
