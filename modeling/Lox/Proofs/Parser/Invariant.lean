import Lox.Proofs.Parser.Reads
import Lox.Tree.Grammar.Statement

/-!
# Invariants of parsers

All parsers of the grammar are built from a few steps: to take a token, to give up, to note a fault
and go on, to run one parser behind another, to recover. So what each of these steps keeps is kept
by every parser. An invariant speaks about a result in view of the tokens that were given, of a list
that they are the end of, and of how many tokens are gone at least.
-/

namespace Lox

namespace Parser

/-- Kinds of tokens that can be part of an expression. -/
def inExpression : Token.Kind → Bool
  | .eof | .leftBrace | .rightBrace | .semicolon | .classWord | .elseWord | .forWord | .funWord
  | .ifWord | .printWord | .returnWord | .varWord | .whileWord => false
  | _ => true

/-- What the steps of parsers for expressions keep. Faults are noted at places within `base` that
were passed before. -/
structure Invariant where
  Holds {α : Type} (base ts : List Token) (taken : Nat) (r : Parse α) : Prop
  rest {α : Type} {base ts rest : List Token} {taken : Nat} {a : α} {errors : List SyntaxError} :
    Holds base ts taken (.ok a rest errors) → rest <:+ ts
  fewer {α : Type} {base ts : List Token} {taken more : Nat} {r : Parse α} :
    taken ≤ more → Holds base ts more r → Holds base ts taken r
  within {α : Type} {base ts left : List Token} {taken : Nat} {r : Parse α} :
    left <:+ base → Holds left ts taken r → Holds base ts taken r
  nothing {α : Type} (base ts : List Token) (a : α) : ts <:+ base → Holds base ts 0 (.ok a ts [])
  taking {α : Type} {base ts : List Token} {taken : Nat} {t : Token} {r : Parse α} :
    inExpression t.kind = true → Holds base ts taken r → Holds base (t :: ts) (taken + 1) r
  failing {α : Type} (base ts : List Token) (taken : Nat) {cause : SyntaxError.Cause} :
    ts <:+ base → cause.isFatal = true → Holds base ts taken (.failed ts [⟨ts, cause⟩] : Parse α)
  reporting (left ts : List Token) {cause : SyntaxError.Cause} :
    ts <:+ left → cause.isFatal = false → Holds left ts 0 (.ok () ts [⟨left, cause⟩])
  andThen {α β : Type} {base ts rest : List Token} {taken more : Nat} {a : α}
    {errors : List SyntaxError} {r : Parse β} :
    Holds base ts taken (.ok a rest errors) → Holds base rest more r →
      Holds base ts (taken + more) (r.after errors)
  givingUp {α β : Type} {base ts rest : List Token} {taken more : Nat}
    {errors : List SyntaxError} :
    Holds base ts taken (.failed rest errors : Parse α) →
      Holds base ts more (.failed rest errors : Parse β)

/-- Statements are made of tokens of all kinds, and a parser for them may recover. -/
structure RecoveryInvariant extends Invariant where
  takingAny {α : Type} {base ts : List Token} {taken : Nat} (t : Token) {r : Parse α} :
    Holds base ts taken r → Holds base (t :: ts) (taken + 1) r
  resuming {α : Type} {base ts rest : List Token} {errors : List SyntaxError} :
    Holds base ts 1 (.failed rest errors : Parse α) →
      Holds base ts 1 (.ok (none : Option α) (resume rest) errors)

namespace Invariant

variable {α β : Type} {I : Invariant} {base : List Token}

/-- Run on any end of `base`, the parser keeps the invariant and takes at least `taken` tokens if it
succeeds. -/
def Keeps (I : Invariant) (base : List Token) (taken : Nat) (p : Parser α) : Prop :=
  ∀ ts, ts <:+ base → I.Holds base ts taken (p ts)

/-! ### Combinators -/

section Combinators

variable {taken more : Nat}

theorem Keeps.fewer {p : Parser α} (h : I.Keeps base more p) (hle : taken ≤ more) :
    I.Keeps base taken p :=
  fun ts hts => I.fewer hle (h ts hts)

theorem Keeps.bind {p : Parser α} {f : α → Parser β} (hp : I.Keeps base taken p)
    (hf : ∀ a, I.Keeps base more (f a)) : I.Keeps base (taken + more) (p >>= f) := by
  intro ts hts
  have hfirst := hp ts hts
  rw [bind_apply]
  cases hrun : p ts with
  | ok a rest errors =>
      rw [hrun] at hfirst
      exact I.andThen hfirst (hf a rest ((I.rest hfirst).trans hts))
  | failed rest errors =>
      rw [hrun] at hfirst
      exact I.givingUp hfirst

/-- Which value is returned does not matter. -/
theorem holds_value {ts rest : List Token} {a : α} {errors : List SyntaxError} (hts : ts <:+ base)
    (h : I.Holds base ts taken (.ok a rest errors)) (b : β) :
    I.Holds base ts taken (.ok b rest errors) := by
  have hvalue := I.andThen h (I.nothing base rest b ((I.rest h).trans hts))
  simpa [Parse.after] using hvalue

theorem Keeps.bind_left {p : Parser α} {f : α → Parser β} (hp : I.Keeps base taken p)
    (hf : ∀ a, I.Keeps base 0 (f a)) : I.Keeps base taken (p >>= f) :=
  hp.bind hf

theorem Keeps.bind_right {p : Parser α} {f : α → Parser β} (hp : I.Keeps base taken p)
    (hf : ∀ a, I.Keeps base more (f a)) : I.Keeps base more (p >>= f) :=
  (hp.bind hf).fewer (Nat.le_add_left more taken)

theorem keeps_pure (a : α) : I.Keeps base 0 (pure a) :=
  fun ts hts => I.nothing base ts a hts

theorem Keeps.map {p : Parser α} (f : α → β) (h : I.Keeps base taken p) :
    I.Keeps base taken (f <$> p) :=
  h.bind_left fun a => keeps_pure (f a)

theorem keeps_fail {cause : SyntaxError.Cause} (h : cause.isFatal = true) :
    I.Keeps base taken (fail cause : Parser α) :=
  fun ts hts => I.failing base ts taken hts h

theorem keeps_report (left : List Token) {cause : SyntaxError.Cause}
    (h : cause.isFatal = false) : I.Keeps left 0 (report left cause) :=
  fun ts hts => I.reporting left ts hts h

/-- A fault may be noted later at a place that was passed before. -/
theorem keeps_here {f : List Token → Parser β} (h : ∀ left, I.Keeps left taken (f left)) :
    I.Keeps base taken (here >>= f) := by
  intro ts hts
  rw [bind_of_ok rfl]
  exact I.within hts (h ts ts (List.suffix_refl ts))

theorem keeps_sees (kind : Token.Kind) : I.Keeps base 0 (sees kind) :=
  fun ts hts => I.nothing base ts _ hts

theorem holds_cons {ts : List Token} {t : Token} {p : Parser α} (h : I.Keeps base taken p)
    (hkind : inExpression t.kind = true) (hts : t :: ts <:+ base) :
    I.Holds base (t :: ts) (taken + 1) (p ts) :=
  I.taking hkind (h ts ((List.suffix_cons t ts).trans hts))

theorem keeps_accept? {kinds : List Token.Kind}
    (hkinds : ∀ kind ∈ kinds, inExpression kind = true) : I.Keeps base 0 (accept? kinds) := by
  intro ts hts
  cases ts with
  | nil => exact I.nothing base [] none hts
  | cons t ts =>
      rw [accept?]
      split
      case isTrue hkind =>
        have htaken := holds_cons (I := I) (keeps_pure (some t)) (hkinds _ hkind) hts
        exact I.fewer (Nat.zero_le _) htaken
      case isFalse => exact I.nothing base (t :: ts) none hts

theorem keeps_expect {kind : Token.Kind} (hkind : inExpression kind = true)
    {cause : SyntaxError.Cause} (hcause : cause.isFatal = true) :
    I.Keeps base 1 (expect kind cause) := by
  intro ts hts
  cases ts with
  | nil => exact I.failing base [] 1 hts hcause
  | cons t ts =>
      rw [expect]
      split
      case isTrue heq =>
        exact holds_cons (I := I) (keeps_pure t) (by rw [heq]; exact hkind) hts
      case isFalse => exact I.failing base (t :: ts) 1 hts hcause

theorem Keeps.bounded {p : Nat → Parser α} (h : ∀ n, I.Keeps base taken (p n)) :
    I.Keeps base taken (bounded p) :=
  fun ts hts => h ts.length ts hts

/-- In front of an item behind the limit there is a report. -/
theorem keeps_limited {p : Parser α} {excess : SyntaxError.Cause} (hexcess : excess.isFatal = false)
    {full : Prop} [Decidable full] (hp : ∀ base, I.Keeps base 0 p) :
    I.Keeps base 0 (if full then here >>= fun left => report left excess >>= fun _ => p else p) := by
  split
  · exact keeps_here fun left => (keeps_report left hexcess).bind_right fun _ => hp left
  · exact hp base

theorem keeps_listFrom {item : Parser α} (hitem : ∀ base, I.Keeps base 0 item)
    {excess : SyntaxError.Cause} (hexcess : excess.isFatal = false) (count n : Nat) :
    I.Keeps base 0 (listFrom item excess count n) := by
  induction n generalizing base count with
  | zero =>
      rw [listFrom]
      exact keeps_limited hexcess fun base => (hitem base).bind_left fun a => keeps_pure [a]
  | succ n ih =>
      rw [listFrom]
      refine keeps_limited hexcess fun base => (hitem base).bind_left fun a => ?_
      refine (keeps_accept? (by decide)).bind_right fun comma => ?_
      cases comma with
      | some _ => exact (ih (count + 1)).map (a :: ·)
      | none => exact keeps_pure [a]

theorem keeps_parenthesized {item : Parser α} (hitem : ∀ base, I.Keeps base 0 item)
    {excess unclosed : SyntaxError.Cause} (hexcess : excess.isFatal = false)
    (hunclosed : unclosed.isFatal = true) :
    I.Keeps base 1 (parenthesized item excess unclosed) := by
  have hclosed (items : List α) :
      I.Keeps base 1 (expect .rightParen unclosed >>= fun paren => pure (items, paren)) :=
    (keeps_expect rfl hunclosed).bind_left fun paren => keeps_pure (items, paren)
  refine (keeps_sees .rightParen).bind_right fun closed => ?_
  split
  · exact (keeps_pure []).bind_right hclosed
  · exact (Keeps.bounded fun n => keeps_listFrom hitem hexcess 0 n).bind_right hclosed

end Combinators

/-! ### Expressions -/

section Expressions

variable {expression : Expression}

theorem keeps_superMethod (keyword : Token) : I.Keeps base 0 (superMethod keyword) :=
  (keeps_expect rfl rfl).bind_right fun _ => (keeps_expect rfl rfl).bind_right fun _ =>
    keeps_pure _

theorem keeps_group (h : I.Keeps base 1 expression) : I.Keeps base 0 (group expression) :=
  h.bind_right fun _ => (keeps_expect rfl rfl).bind_right fun _ => keeps_pure _

theorem keeps_primary (h : I.Keeps base 1 expression) : I.Keeps base 1 (primary expression) := by
  intro ts hts
  cases ts with
  | nil => exact I.failing base [] 1 hts rfl
  | cons t ts =>
      unfold primary
      dsimp only
      split
      case h_6 hkind => exact holds_cons (keeps_superMethod t) (by rw [hkind]; rfl) hts
      case h_9 hkind => exact holds_cons (keeps_group h) (by rw [hkind]; rfl) hts
      case h_10 => exact I.failing base (t :: ts) 1 hts rfl
      all_goals
        rename_i hkind
        exact holds_cons (I := I) (keeps_pure _) (by rw [hkind]; rfl) hts

theorem keeps_suffixes (h : ∀ base, I.Keeps base 1 expression) (n : Nat) (e : Expr Unit) :
    I.Keeps base 0 (suffixes expression n e) := by
  induction n generalizing e with
  | zero => exact keeps_pure e
  | succ n ih =>
      refine (keeps_accept? (by decide)).bind_right fun found => ?_
      cases found with
      | none => exact keeps_pure e
      | some t =>
          dsimp only
          split
          · exact (keeps_expect rfl rfl).bind_right fun name => ih _
          · have harguments (base : List Token) : I.Keeps base 0 expression :=
              (h base).fewer (Nat.zero_le 1)
            exact (keeps_parenthesized harguments rfl rfl).bind_right fun listed => ih _

theorem keeps_call (h : ∀ base, I.Keeps base 1 expression) : I.Keeps base 1 (call expression) :=
  (keeps_primary (h base)).bind_left fun e => .bounded fun n => keeps_suffixes h n e

theorem inExpression_of_isUnary {t : Token} (h : isUnary t = true) :
    inExpression t.kind = true := by
  revert h
  unfold isUnary
  cases t.kind <;> decide

/-- Unary operators in front of an expression are taken one by one. -/
theorem holds_dropWhile {p : Parser α} (hp : I.Keeps base 1 p) (ts : List Token)
    (hts : ts <:+ base) : I.Holds base ts 1 (p (ts.dropWhile isUnary)) := by
  induction ts with
  | nil => exact hp [] hts
  | cons t ts ih =>
      rw [List.dropWhile_cons]
      split
      case isTrue hunary =>
        have hinner := ih ((List.suffix_cons t ts).trans hts)
        exact I.fewer (Nat.le_succ 1) (I.taking (inExpression_of_isUnary hunary) hinner)
      case isFalse => exact hp (t :: ts) hts

theorem keeps_unary (h : ∀ base, I.Keeps base 1 expression) :
    I.Keeps base 1 (unary expression) := by
  intro ts hts
  have hcall : I.Keeps base 1 (call expression) := keeps_call h
  exact holds_dropWhile (hcall.map fun e => (ts.takeWhile isUnary).foldr Expr.unary e) ts hts

theorem keeps_leftAssociative (node : Expr Unit → Token → Expr Unit → Expr Unit)
    {operators : List Token.Kind} (hoperators : ∀ kind ∈ operators, inExpression kind = true)
    {operand : Expression} (h : I.Keeps base 1 operand) :
    I.Keeps base 1 (leftAssociative node operators operand) := by
  have hoperands (n : Nat) (left : Expr Unit) :
      I.Keeps base 0 (operands node operators operand n left) := by
    induction n generalizing left with
    | zero => exact keeps_pure left
    | succ n ih =>
        refine (keeps_accept? hoperators).bind_right fun found => ?_
        cases found with
        | none => exact keeps_pure left
        | some operator => exact h.bind_right fun right => ih _
  exact h.bind_left fun left => .bounded fun n => hoperands n left

theorem keeps_disjunction (h : ∀ base, I.Keeps base 1 expression) :
    I.Keeps base 1 (disjunction expression) := by
  refine keeps_leftAssociative _ (by decide) (keeps_leftAssociative _ (by decide) ?_)
  refine keeps_leftAssociative _ (by decide) (keeps_leftAssociative _ (by decide) ?_)
  exact keeps_leftAssociative _ (by decide) (keeps_leftAssociative _ (by decide) (keeps_unary h))

theorem keeps_assignment (h : ∀ base, I.Keeps base 1 expression) :
    I.Keeps base 1 (assignment expression) := by
  refine (keeps_disjunction h).bind_left fun target => keeps_here fun left => ?_
  refine (keeps_accept? (by decide)).bind_right fun found => ?_
  cases found with
  | none => exact keeps_pure target
  | some _ =>
      refine (h left).bind_right fun value => ?_
      cases assignTo? target value with
      | some e => exact keeps_pure e
      | none => exact (keeps_report left rfl).bind_right fun _ => keeps_pure target

theorem keeps_expressionIn (n : Nat) : I.Keeps base 1 (expressionIn n) := by
  induction n generalizing base with
  | zero => exact keeps_fail rfl
  | succ n ih => exact keeps_assignment fun _ => ih

theorem keeps_expression : I.Keeps base 1 Parser.expression :=
  fun ts hts => keeps_expressionIn _ ts hts

theorem keeps_unlessAt (kind : Token.Kind) : I.Keeps base 0 (unlessAt kind) := by
  refine (keeps_sees kind).bind_right fun found => ?_
  split
  · exact keeps_pure none
  · exact keeps_expression.bind_right fun e => keeps_pure (some e)

end Expressions

end Invariant

/-! ### Statements and declarations -/

namespace RecoveryInvariant

open Invariant

variable {α β : Type} {I : RecoveryInvariant} {base : List Token} {taken : Nat}
  {declaration : Declaration} {statement : Statement}

theorem holds_tail {t : Token} {ts : List Token} {p : Parser α} (h : I.Keeps base taken p)
    (hts : t :: ts <:+ base) : I.Holds base (t :: ts) (taken + 1) (p ts) :=
  I.takingAny t (h ts ((List.suffix_cons t ts).trans hts))

/-- A token of any kind. -/
theorem keeps_token (kind : Token.Kind) {cause : SyntaxError.Cause}
    (hcause : cause.isFatal = true) : I.Keeps base 1 (expect kind cause) := by
  intro ts hts
  cases ts with
  | nil => exact I.failing base [] 1 hts hcause
  | cons t ts =>
      rw [expect]
      split
      · exact holds_tail (I := I) (keeps_pure t) hts
      · exact I.failing base (t :: ts) 1 hts hcause

theorem keeps_optional (kinds : List Token.Kind) : I.Keeps base 0 (accept? kinds) := by
  intro ts hts
  cases ts with
  | nil => exact I.nothing base [] none hts
  | cons t ts =>
      rw [accept?]
      split
      · exact I.fewer (Nat.zero_le _) (holds_tail (I := I) (keeps_pure (some t)) hts)
      · exact I.nothing base (t :: ts) none hts

theorem keeps_recovering {p : Parser α} (h : I.Keeps base 1 p) : I.Keeps base 1 (recovering p) := by
  intro ts hts
  have hgiven := h ts hts
  unfold recovering
  cases hrun : p ts with
  | ok a rest errors =>
      rw [hrun] at hgiven
      exact holds_value hts hgiven (some a)
  | failed rest errors =>
      rw [hrun] at hgiven
      exact I.resuming hgiven

theorem keeps_expressionStatement : I.Keeps base 1 expressionStatement :=
  keeps_expression.bind_left fun _ => (keeps_token .semicolon rfl).bind_right fun _ => keeps_pure _

theorem keeps_printStatement : I.Keeps base 0 printStatement :=
  keeps_expression.bind_right fun _ => (keeps_token .semicolon rfl).bind_right fun _ =>
    keeps_pure _

theorem keeps_returnStatement (keyword : Token) : I.Keeps base 0 (returnStatement keyword) :=
  (keeps_unlessAt .semicolon).bind_right fun _ =>
    (keeps_token .semicolon rfl).bind_right fun _ => keeps_pure _

theorem keeps_variableDeclaration : I.Keeps base 0 variableDeclaration := by
  have hend (name : Token) (init : Option (Expr Unit)) :
      I.Keeps base 0 (expect .semicolon .variableEnd >>= fun _ => pure (Stmt.var name init)) :=
    (keeps_token .semicolon rfl).bind_right fun _ => keeps_pure _
  refine (keeps_token .identifier rfl).bind_right fun name => ?_
  refine (keeps_optional [.equal]).bind_right fun found => ?_
  cases found with
  | some _ => exact (keeps_expression.map some).bind_right (hend name)
  | none => exact (keeps_pure none).bind_right (hend name)

theorem keeps_whileStatement (h : I.Keeps base 1 statement) :
    I.Keeps base 0 (whileStatement statement) :=
  (keeps_token .leftParen rfl).bind_right fun _ => keeps_expression.bind_right fun _ =>
    (keeps_token .rightParen rfl).bind_right fun _ => h.bind_right fun _ => keeps_pure _

theorem keeps_ifStatement (h : I.Keeps base 1 statement) :
    I.Keeps base 0 (ifStatement statement) := by
  refine (keeps_token .leftParen rfl).bind_right fun _ => keeps_expression.bind_right fun _ => ?_
  refine (keeps_token .rightParen rfl).bind_right fun _ => h.bind_right fun _ => ?_
  refine (keeps_optional [.elseWord]).bind_right fun found => ?_
  cases found with
  | some _ => exact h.bind_right fun _ => keeps_pure _
  | none => exact keeps_pure _

theorem keeps_forInitializer : I.Keeps base 0 forInitializer := by
  refine (keeps_optional [.semicolon, .varWord]).bind_right fun found => ?_
  cases found with
  | none => exact (keeps_expressionStatement.map some).fewer (Nat.zero_le _)
  | some t =>
      dsimp only
      split
      · exact keeps_pure none
      · exact keeps_variableDeclaration.map some

theorem keeps_forStatement (h : I.Keeps base 1 statement) :
    I.Keeps base 0 (forStatement statement) := by
  refine (keeps_token .leftParen rfl).bind_right fun _ => ?_
  refine keeps_forInitializer.bind_right fun _ => ?_
  refine (keeps_unlessAt .semicolon).bind_right fun _ => ?_
  refine (keeps_token .semicolon rfl).bind_right fun _ => ?_
  refine (keeps_unlessAt .rightParen).bind_right fun _ => ?_
  exact (keeps_token .rightParen rfl).bind_right fun _ => h.bind_right fun _ => keeps_pure _

theorem keeps_declarations (h : I.Keeps base 1 declaration) (n : Nat) :
    I.Keeps base 0 (declarations declaration n) := by
  induction n with
  | zero => exact keeps_pure []
  | succ n ih =>
      intro ts hts
      cases ts with
      | nil => exact I.nothing base [] [] hts
      | cons t ts =>
          unfold declarations
          dsimp only
          split
          · exact I.nothing base (t :: ts) [] hts
          · exact (h.bind_right fun _ => ih.bind_right fun _ => keeps_pure _) (t :: ts) hts

theorem keeps_block (h : I.Keeps base 1 declaration) : I.Keeps base 0 (block declaration) :=
  (Keeps.bounded (keeps_declarations h)).bind_right fun _ =>
    (keeps_token .rightBrace rfl).bind_right fun _ => keeps_pure _

theorem keeps_functionDecl (h : I.Keeps base 1 declaration) (role : FunctionRole) :
    I.Keeps base 1 (functionDecl declaration role) := by
  have hparameter (base : List Token) : I.Keeps base 0 (expect .identifier .parameterName) :=
    (keeps_token .identifier rfl).fewer (Nat.zero_le 1)
  refine (keeps_token .identifier rfl).bind_left fun _ => ?_
  refine (keeps_token .leftParen rfl).bind_right fun _ => ?_
  refine (keeps_parenthesized hparameter rfl rfl).bind_right fun _ => ?_
  exact (keeps_token .leftBrace rfl).bind_right fun _ => (keeps_block h).bind_right fun _ =>
    keeps_pure _

theorem keeps_methods (h : I.Keeps base 1 declaration) (n : Nat) :
    I.Keeps base 0 (methods declaration n) := by
  induction n with
  | zero => exact keeps_pure []
  | succ n ih =>
      intro ts hts
      cases ts with
      | nil => exact I.nothing base [] [] hts
      | cons t ts =>
          unfold methods
          dsimp only
          split
          · exact I.nothing base (t :: ts) [] hts
          · exact ((keeps_functionDecl h .method).bind_right fun _ => ih.bind_right fun _ =>
              keeps_pure _) (t :: ts) hts

theorem keeps_superclassClause : I.Keeps base 0 superclassClause := by
  refine (keeps_optional [.less]).bind_right fun found => ?_
  cases found with
  | some _ => exact (keeps_token .identifier rfl).bind_right fun _ => keeps_pure _
  | none => exact keeps_pure none

theorem keeps_classDeclaration (h : I.Keeps base 1 declaration) :
    I.Keeps base 0 (classDeclaration declaration) := by
  refine (keeps_token .identifier rfl).bind_right fun _ => ?_
  refine keeps_superclassClause.bind_right fun _ => ?_
  refine (keeps_token .leftBrace rfl).bind_right fun _ => ?_
  exact (Keeps.bounded (keeps_methods h)).bind_right fun _ =>
    (keeps_token .rightBrace rfl).bind_right fun _ => keeps_pure _

theorem keeps_statementWith (hd : I.Keeps base 1 declaration) (hs : I.Keeps base 1 statement) :
    I.Keeps base 1 (statementWith declaration statement) := by
  intro ts hts
  cases ts with
  | nil => exact keeps_expressionStatement [] hts
  | cons t ts =>
      unfold statementWith
      dsimp only
      split
      · exact holds_tail (keeps_forStatement hs) hts
      · exact holds_tail (keeps_ifStatement hs) hts
      · exact holds_tail (I := I) keeps_printStatement hts
      · exact holds_tail (I := I) (keeps_returnStatement t) hts
      · exact holds_tail (keeps_whileStatement hs) hts
      · exact holds_tail ((keeps_block hd).map Stmt.block) hts
      · exact keeps_expressionStatement (t :: ts) hts

theorem keeps_declarationWith (hd : I.Keeps base 1 declaration) (hs : I.Keeps base 1 statement) :
    I.Keeps base 1 (declarationWith declaration statement) := by
  intro ts hts
  cases ts with
  | nil => exact keeps_statementWith hd hs [] hts
  | cons t ts =>
      unfold declarationWith
      dsimp only
      split
      · exact holds_tail (keeps_classDeclaration hd) hts
      · exact I.fewer (Nat.le_succ 1)
          (holds_tail ((keeps_functionDecl hd .function).map Stmt.function) hts)
      · exact holds_tail (I := I) keeps_variableDeclaration hts
      · exact keeps_statementWith hd hs (t :: ts) hts

/-- The parsers that are tied together by counting. -/
theorem keeps_nested (n : Nat) :
    I.Keeps base 1 (statementIn n) ∧ I.Keeps base 1 (declarationIn n) := by
  induction n with
  | zero => exact ⟨keeps_fail rfl, keeps_recovering (keeps_fail rfl)⟩
  | succ n ih =>
      rw [statementIn, declarationIn]
      exact ⟨keeps_statementWith ih.2 ih.1, keeps_recovering (keeps_declarationWith ih.2 ih.1)⟩

theorem keeps_declaration : I.Keeps base 1 Parser.declaration :=
  fun ts hts => (keeps_nested _).2 ts hts

theorem keeps_program (n : Nat) : I.Keeps base 0 (program n) := by
  induction n with
  | zero => exact keeps_pure []
  | succ n ih =>
      intro ts hts
      cases ts with
      | nil => exact I.nothing base [] [] hts
      | cons t ts =>
          exact (keeps_declaration.bind_right fun _ => ih.bind_right fun _ => keeps_pure _)
            (t :: ts) hts

end RecoveryInvariant

end Parser

end Lox
