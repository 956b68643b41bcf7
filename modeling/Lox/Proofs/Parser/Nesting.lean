import Lox.Proofs.Parser.ExpressionSound
import Lox.Proofs.Parser.Moves

/-!
# Bounds that are never met

The parsers of nested rules count levels, and those of lists count rounds. A rule calls itself only
behind a token that it took, so a bound above the number of tokens is not met, and the grammar holds
without it. Two parsers that agree on short lists of tokens make rules that agree on longer ones.
-/

namespace Lox.Parser

variable {α β : Type} {k : Nat}

/-- What the parser leaves is an end of what it was given. -/
def Forwards (p : Parser α) : Prop :=
  ∀ ts, (p ts).rest <:+ ts

/-- On fewer than `k` tokens both parsers do the same, and go forwards. -/
def AgreeBelow (k : Nat) (p q : Parser α) : Prop :=
  ∀ ts, ts.length < k → p ts = q ts ∧ (p ts).rest <:+ ts

theorem Forwards.of_moves {p : Parser α} (taken : Nat) (h : ∀ base, Moves base taken p) :
    Forwards p := by
  intro ts
  have hwithin := h ts ts (List.suffix_refl ts)
  cases hrun : p ts with
  | ok a rest errors =>
      rw [hrun] at hwithin
      exact hwithin.1
  | failed rest errors =>
      rw [hrun] at hwithin
      exact hwithin.1

theorem Forwards.agree {p : Parser α} (h : Forwards p) : AgreeBelow k p p :=
  fun ts _ => ⟨rfl, h ts⟩

theorem forwards_pure (a : α) : Forwards (pure a) :=
  List.suffix_refl

theorem forwards_report (left : List Token) (cause : SyntaxError.Cause) :
    Forwards (report left cause) :=
  List.suffix_refl

theorem forwards_sees (kind : Token.Kind) : Forwards (sees kind) :=
  List.suffix_refl

theorem forwards_expect (kind : Token.Kind) (cause : SyntaxError.Cause) :
    Forwards (expect kind cause) := by
  intro ts
  cases ts with
  | nil => exact List.suffix_refl []
  | cons t ts =>
      rw [expect]
      split
      · exact List.suffix_cons t ts
      · exact List.suffix_refl (t :: ts)

@[simp]
theorem rest_after (errors : List SyntaxError) (r : Parse α) : (r.after errors).rest = r.rest := by
  cases r <;> rfl

namespace AgreeBelow

theorem mono {p q : Parser α} {m : Nat} (h : AgreeBelow k p q) (hm : m ≤ k) :
    AgreeBelow m p q :=
  fun ts hts => h ts (Nat.lt_of_lt_of_le hts hm)

/-- Behind a parser that takes a token, it is enough to agree on fewer tokens. -/
theorem bind_taking {p q : Parser α} {f g : α → Parser β} {m taken : Nat} (hp : AgreeBelow k p q)
    (htaken : ∀ base, Moves base taken p) (hm : k ≤ m + taken) (hpos : 0 < m)
    (hf : ∀ a, AgreeBelow m (f a) (g a)) : AgreeBelow k (p >>= f) (q >>= g) := by
  intro ts hts
  obtain ⟨heq, hforwards⟩ := hp ts hts
  have hwithin := htaken ts ts (List.suffix_refl ts)
  rw [bind_apply, bind_apply, ← heq]
  cases hrun : p ts with
  | ok a rest errors =>
      rw [hrun] at hwithin hforwards
      have hshort : rest.length < m := by
        have := hwithin.2.1
        omega
      obtain ⟨hnext, hrest⟩ := hf a rest hshort
      refine ⟨congrArg (Parse.after errors) hnext, ?_⟩
      rw [rest_after]
      exact hrest.trans hforwards
  | failed rest errors =>
      rw [hrun] at hforwards
      exact ⟨rfl, hforwards⟩

theorem bind {p q : Parser α} {f g : α → Parser β} (hp : AgreeBelow k p q)
    (hf : ∀ a, AgreeBelow k (f a) (g a)) : AgreeBelow k (p >>= f) (q >>= g) := by
  intro ts hts
  obtain ⟨heq, hforwards⟩ := hp ts hts
  rw [bind_apply, bind_apply, ← heq]
  cases hrun : p ts with
  | ok a rest errors =>
      rw [hrun] at hforwards
      obtain ⟨hnext, hrest⟩ := hf a rest (Nat.lt_of_le_of_lt hforwards.length_le hts)
      refine ⟨congrArg (Parse.after errors) hnext, ?_⟩
      rw [rest_after]
      exact hrest.trans hforwards
  | failed rest errors =>
      rw [hrun] at hforwards
      exact ⟨rfl, hforwards⟩

theorem after {p : Parser α} {f g : α → Parser β} (hp : Forwards p)
    (hf : ∀ a, AgreeBelow k (f a) (g a)) : AgreeBelow k (p >>= f) (p >>= g) :=
  hp.agree.bind hf

theorem then_pure {p q : Parser α} (h : AgreeBelow k p q) (f : α → β) :
    AgreeBelow k (p >>= fun a => pure (f a)) (q >>= fun a => pure (f a)) :=
  h.bind fun a => (forwards_pure (f a)).agree

theorem map {p q : Parser α} (f : α → β) (h : AgreeBelow k p q) :
    AgreeBelow k (f <$> p) (f <$> q) :=
  h.then_pure f

theorem here {f g : List Token → Parser β} (h : ∀ left, AgreeBelow k (f left) (g left)) :
    AgreeBelow k (here >>= f) (here >>= g) :=
  after List.suffix_refl h

theorem cons {p q : Parser α} (h : AgreeBelow k p q) {t : Token} {ts : List Token}
    (hts : (t :: ts).length < k + 1) : p ts = q ts ∧ (p ts).rest <:+ t :: ts := by
  obtain ⟨heq, hrest⟩ := h ts (Nat.lt_of_succ_lt_succ hts)
  exact ⟨heq, hrest.trans (List.suffix_cons t ts)⟩

/-- Where a token was taken, fewer are left. -/
theorem accept {f g : Option Token → Parser β} {kinds : List Token.Kind}
    (hnone : AgreeBelow (k + 1) (f none) (g none))
    (hsome : ∀ t, AgreeBelow k (f (some t)) (g (some t))) :
    AgreeBelow (k + 1) (accept? kinds >>= f) (accept? kinds >>= g) := by
  intro ts hts
  cases ts with
  | nil =>
      rw [bind_of_ok (a := none) rfl, bind_of_ok (a := none) rfl]
      exact hnone [] hts
  | cons t ts =>
      by_cases hkind : t.kind ∈ kinds
      · rw [bind_of_ok (accept?_of_mem hkind ts), bind_of_ok (accept?_of_mem hkind ts)]
        exact (hsome t).cons hts
      · have hstop : accept? kinds (t :: ts) = .ok none (t :: ts) [] :=
          accept?_of_stop fun t' rest heq => by cases heq; exact hkind
        rw [bind_of_ok hstop, bind_of_ok hstop]
        exact hnone (t :: ts) hts

theorem one {p q : Parser α} (h : p [] = q []) (hrest : (p []).rest = []) : AgreeBelow 1 p q := by
  intro ts hts
  obtain rfl : ts = [] := List.length_eq_zero_iff.mp (Nat.lt_one_iff.mp hts)
  exact ⟨h, List.suffix_nil.mpr hrest⟩

theorem bounded {p q : Nat → Parser α} (h : ∀ n, AgreeBelow k (p n) (q n)) :
    AgreeBelow k (bounded p) (bounded q) :=
  fun ts hts => h ts.length ts hts

theorem recovering {p q : Parser α} (h : AgreeBelow k p q) :
    AgreeBelow k (recovering p) (recovering q) := by
  intro ts hts
  obtain ⟨heq, hforwards⟩ := h ts hts
  unfold Parser.recovering
  rw [← heq]
  cases hrun : p ts with
  | ok a rest errors =>
      rw [hrun] at hforwards
      exact ⟨rfl, hforwards⟩
  | failed rest errors =>
      rw [hrun] at hforwards
      have hresume := (resume_suffix_tail rest).trans (List.tail_suffix rest)
      exact ⟨rfl, hresume.trans hforwards⟩

end AgreeBelow

/-! ### As many rounds as tokens -/

/-- A bound that is at least the number of tokens is as good as any greater one. -/
def BoundSuffices (p : Nat → Parser α) : Prop :=
  ∀ n ts, ts.length ≤ n → p n ts = bounded p ts

/-- It is enough to compare with one more round. -/
theorem BoundSuffices.of_step {p : Nat → Parser α} (h : ∀ n, AgreeBelow (n + 1) (p n) (p (n + 1))) :
    BoundSuffices p := by
  intro n ts hts
  induction n with
  | zero =>
      rw [bounded, Nat.le_zero.mp hts]
  | succ n ih =>
      rcases Nat.lt_or_ge n ts.length with hlt | hle
      · have hlast : ts.length = n + 1 := Nat.le_antisymm hts hlt
        rw [bounded, hlast]
      · calc p (n + 1) ts = p n ts := ((h n) ts (Nat.lt_succ_of_le hle)).1.symm
          _ = bounded p ts := ih hle

section Rules

variable {expression expression' : Expression}

theorem agree_limited {p p' : Parser α} (h : AgreeBelow k p p') (excess : SyntaxError.Cause)
    {full : Prop} [Decidable full] :
    AgreeBelow k (if full then here >>= fun left => report left excess >>= fun _ => p else p)
      (if full then here >>= fun left => report left excess >>= fun _ => p' else p') := by
  split
  · exact .here fun left => .after (forwards_report left excess) fun _ => h
  · exact h

theorem agree_listFrom {item item' : Parser α} (h : AgreeBelow k item item')
    (excess : SyntaxError.Cause) (count n : Nat) :
    AgreeBelow k (listFrom item excess count n) (listFrom item' excess count n) := by
  induction n generalizing count with
  | zero =>
      rw [listFrom, listFrom]
      exact agree_limited (h.then_pure fun a => [a]) excess
  | succ n ih =>
      rw [listFrom, listFrom]
      apply agree_limited
      refine h.bind fun a => ?_
      cases k with
      | zero => exact fun ts hts => absurd hts (Nat.not_lt_zero _)
      | succ k =>
          refine .accept (forwards_pure [a]).agree fun _ => ?_
          exact ((ih (count + 1)).mono (Nat.le_succ k)).then_pure (a :: ·)

theorem agree_parenthesized {item item' : Parser α} (h : AgreeBelow k item item')
    (excess unclosed : SyntaxError.Cause) :
    AgreeBelow k (parenthesized item excess unclosed) (parenthesized item' excess unclosed) := by
  have hclosed (items : List α) : AgreeBelow k
      (expect .rightParen unclosed >>= fun paren => pure (items, paren))
      (expect .rightParen unclosed >>= fun paren => pure (items, paren)) :=
    (forwards_expect _ _).agree.then_pure fun paren => (items, paren)
  refine .after (forwards_sees .rightParen) fun closed => ?_
  split
  · exact .after (forwards_pure []) hclosed
  · exact (AgreeBelow.bounded fun n => agree_listFrom h excess 0 n).bind hclosed

/-! ### Expressions -/

theorem forwards_superMethod (keyword : Token) : Forwards (superMethod keyword) :=
  .of_moves 0 fun _ =>
    Invariant.keeps_superMethod (I := withinTokens.toInvariant) keyword

theorem agree_primary (h : AgreeBelow k expression expression') :
    AgreeBelow (k + 1) (primary expression) (primary expression') := by
  intro ts hts
  cases ts with
  | nil => exact ⟨rfl, List.suffix_refl []⟩
  | cons t ts =>
      have hgroup : AgreeBelow k (group expression) (group expression') :=
        h.bind fun inner => (forwards_expect _ _).agree.then_pure fun _ => Expr.group inner
      unfold primary
      dsimp only
      split
      case h_6 => exact ⟨rfl, (forwards_superMethod t ts).trans (List.suffix_cons t ts)⟩
      case h_9 => exact hgroup.cons hts
      case h_10 => exact ⟨rfl, List.suffix_refl (t :: ts)⟩
      all_goals exact ⟨rfl, List.suffix_cons t ts⟩

theorem agree_suffixes (h : AgreeBelow k expression expression') (n : Nat) (e : Expr Unit) :
    AgreeBelow (k + 1) (suffixes expression n e) (suffixes expression' n e) := by
  induction n generalizing e with
  | zero => exact (forwards_pure e).agree
  | succ n ih =>
      refine .accept (forwards_pure e).agree fun t => ?_
      dsimp only
      split
      · exact .after (forwards_expect _ _) fun name => (ih _).mono (Nat.le_succ k)
      · exact (agree_parenthesized h _ _).bind fun listed => (ih _).mono (Nat.le_succ k)

theorem agree_call (h : AgreeBelow k expression expression') :
    AgreeBelow (k + 1) (call expression) (call expression') :=
  (agree_primary h).bind fun e => .bounded fun n => agree_suffixes h n e

theorem agree_unary (h : AgreeBelow k expression expression') :
    AgreeBelow (k + 1) (unary expression) (unary expression') := by
  intro ts hts
  have hdropped : ts.dropWhile isUnary <:+ ts := List.dropWhile_suffix isUnary
  have hcall := (agree_call h).then_pure fun e => (ts.takeWhile isUnary).foldr Expr.unary e
  obtain ⟨heq, hrest⟩ := hcall _ (Nat.lt_of_le_of_lt hdropped.length_le hts)
  exact ⟨heq, hrest.trans hdropped⟩

theorem agree_leftAssociative (node : Expr Unit → Token → Expr Unit → Expr Unit)
    (operators : List Token.Kind) {operand operand' : Expression}
    (h : AgreeBelow k operand operand') :
    AgreeBelow k (leftAssociative node operators operand)
      (leftAssociative node operators operand') := by
  have hoperands (n : Nat) (left : Expr Unit) :
      AgreeBelow k (operands node operators operand n left)
        (operands node operators operand' n left) := by
    induction n generalizing left with
    | zero => exact (forwards_pure left).agree
    | succ n ih =>
        cases k with
        | zero => exact fun ts hts => absurd hts (Nat.not_lt_zero _)
        | succ k =>
            refine .accept (forwards_pure left).agree fun operator => ?_
            exact ((h.bind fun right => ih _).mono (Nat.le_succ k))
  exact h.bind fun left => .bounded fun n => hoperands n left

theorem agree_assignment (h : AgreeBelow k expression expression') :
    AgreeBelow (k + 1) (assignment expression) (assignment expression') := by
  have htarget : AgreeBelow (k + 1) (disjunction expression) (disjunction expression') := by
    refine agree_leftAssociative _ _ (agree_leftAssociative _ _ ?_)
    refine agree_leftAssociative _ _ (agree_leftAssociative _ _ ?_)
    exact agree_leftAssociative _ _ (agree_leftAssociative _ _ (agree_unary h))
  refine htarget.bind fun target => .here fun left => ?_
  refine .accept (forwards_pure target).agree fun _ => ?_
  refine h.bind fun value => ?_
  cases assignTo? target value with
  | some e => exact (forwards_pure e).agree
  | none => exact .after (forwards_report left _) fun _ => (forwards_pure target).agree

theorem agree_expressionIn (n : Nat) : AgreeBelow n (expressionIn n) (expressionIn (n + 1)) := by
  induction n with
  | zero => exact fun ts hts => absurd hts (Nat.not_lt_zero _)
  | succ n ih => exact agree_assignment ih

theorem expressionIn_of_length_lt {n : Nat} {ts : List Token} (h : ts.length < n) :
    expressionIn n ts = Parser.expression ts := by
  have hsuffices : BoundSuffices fun n => expressionIn (n + 1) :=
    .of_step fun n => agree_expressionIn (n + 1)
  cases n with
  | zero => exact absurd h (Nat.not_lt_zero _)
  | succ n => exact hsuffices n ts (Nat.le_of_lt_succ h)

/-- An expression is an assignment whose parts are expressions, to any depth. -/
theorem expression_eq : Parser.expression = assignment Parser.expression := by
  funext ts
  have hagree : AgreeBelow ts.length (expressionIn ts.length) Parser.expression :=
    fun us hus => ⟨expressionIn_of_length_lt hus, (agree_expressionIn _ us hus).2⟩
  exact (agree_assignment hagree ts (Nat.lt_succ_self _)).1

end Rules

/-! ### Statements and declarations -/

section Statements

variable {declaration declaration' : Declaration} {statement statement' : Statement}

theorem forwards_accept? (kinds : List Token.Kind) : Forwards (accept? kinds) :=
  .of_moves 0 fun _ => RecoveryInvariant.keeps_optional (I := withinTokens) kinds

theorem forwards_expression : Forwards Parser.expression :=
  .of_moves 1 fun _ => Invariant.keeps_expression (I := withinTokens.toInvariant)

theorem forwards_expressionStatement : Forwards expressionStatement :=
  .of_moves 1 fun _ => RecoveryInvariant.keeps_expressionStatement (I := withinTokens)

theorem forwards_printStatement : Forwards printStatement :=
  .of_moves 0 fun _ => RecoveryInvariant.keeps_printStatement (I := withinTokens)

theorem forwards_returnStatement (keyword : Token) : Forwards (returnStatement keyword) :=
  .of_moves 0 fun _ =>
    RecoveryInvariant.keeps_returnStatement (I := withinTokens) keyword

theorem forwards_variableDeclaration : Forwards variableDeclaration :=
  .of_moves 0 fun _ => RecoveryInvariant.keeps_variableDeclaration (I := withinTokens)

theorem forwards_forInitializer : Forwards forInitializer :=
  .of_moves 0 fun _ => RecoveryInvariant.keeps_forInitializer (I := withinTokens)

theorem forwards_unlessAt (kind : Token.Kind) : Forwards (unlessAt kind) :=
  .of_moves 0 fun _ =>
    Invariant.keeps_unlessAt (I := withinTokens.toInvariant) kind

theorem forwards_superclassClause : Forwards superclassClause :=
  .of_moves 0 fun _ => RecoveryInvariant.keeps_superclassClause (I := withinTokens)

theorem agree_whileStatement (h : AgreeBelow k statement statement') :
    AgreeBelow k (whileStatement statement) (whileStatement statement') :=
  .after (forwards_expect _ _) fun _ => .after forwards_expression fun condition =>
    .after (forwards_expect _ _) fun _ => h.then_pure fun body => Stmt.while condition body

theorem agree_ifStatement (h : AgreeBelow k statement statement') :
    AgreeBelow k (ifStatement statement) (ifStatement statement') := by
  refine .after (forwards_expect _ _) fun _ => .after forwards_expression fun condition => ?_
  refine .after (forwards_expect _ _) fun _ => h.bind fun thenBranch => ?_
  refine .after (forwards_accept? _) fun found => ?_
  cases found with
  | some _ => exact h.then_pure fun other => Stmt.ifElse condition thenBranch other
  | none => exact (forwards_pure _).agree

theorem agree_forStatement (h : AgreeBelow k statement statement') :
    AgreeBelow k (forStatement statement) (forStatement statement') := by
  refine .after (forwards_expect _ _) fun _ => .after forwards_forInitializer fun init => ?_
  refine .after (forwards_unlessAt _) fun condition => .after (forwards_expect _ _) fun _ => ?_
  refine .after (forwards_unlessAt _) fun increment => .after (forwards_expect _ _) fun _ => ?_
  exact h.then_pure fun body => forLoop init condition increment body

theorem agree_declarations (h : AgreeBelow k declaration declaration') (n : Nat) :
    AgreeBelow k (declarations declaration n) (declarations declaration' n) := by
  induction n with
  | zero => exact (forwards_pure []).agree
  | succ n ih =>
      intro ts hts
      cases ts with
      | nil => exact ⟨rfl, List.suffix_refl []⟩
      | cons t ts =>
          unfold declarations
          dsimp only
          split
          · exact ⟨rfl, List.suffix_refl (t :: ts)⟩
          · exact (h.bind fun first => ih.then_pure fun others => first.toList ++ others)
              (t :: ts) hts

theorem agree_block (h : AgreeBelow k declaration declaration') :
    AgreeBelow k (block declaration) (block declaration') :=
  (AgreeBelow.bounded (agree_declarations h)).bind fun body =>
    (forwards_expect _ _).agree.then_pure fun _ => body

theorem agree_functionDecl (h : AgreeBelow k declaration declaration') (role : FunctionRole) :
    AgreeBelow k (functionDecl declaration role) (functionDecl declaration' role) := by
  refine .after (forwards_expect _ _) fun name => .after (forwards_expect _ _) fun _ => ?_
  refine (agree_parenthesized (forwards_expect _ _).agree _ _).bind fun listed => ?_
  refine .after (forwards_expect _ _) fun _ => ?_
  exact (agree_block h).then_pure fun body => FunctionDecl.mk name listed.1 body

theorem agree_methods (h : AgreeBelow k declaration declaration') (n : Nat) :
    AgreeBelow k (methods declaration n) (methods declaration' n) := by
  induction n with
  | zero => exact (forwards_pure []).agree
  | succ n ih =>
      intro ts hts
      cases ts with
      | nil => exact ⟨rfl, List.suffix_refl []⟩
      | cons t ts =>
          unfold methods
          dsimp only
          split
          · exact ⟨rfl, List.suffix_refl (t :: ts)⟩
          · exact ((agree_functionDecl h .method).bind fun first =>
              ih.then_pure fun others => first :: others) (t :: ts) hts

theorem agree_classDeclaration (h : AgreeBelow k declaration declaration') :
    AgreeBelow k (classDeclaration declaration) (classDeclaration declaration') := by
  refine .after (forwards_expect _ _) fun name => .after forwards_superclassClause fun base => ?_
  refine .after (forwards_expect _ _) fun _ => ?_
  exact (AgreeBelow.bounded (agree_methods h)).bind fun methods =>
    (forwards_expect _ _).agree.then_pure fun _ => Stmt.class name base methods

theorem agree_statementWith (hd : AgreeBelow k declaration declaration')
    (hs : AgreeBelow k statement statement') :
    AgreeBelow (k + 1) (statementWith declaration statement)
      (statementWith declaration' statement') := by
  intro ts hts
  cases ts with
  | nil => exact ⟨rfl, forwards_expressionStatement []⟩
  | cons t ts =>
      have htail {q : Statement} (h : Forwards q) : q ts = q ts ∧ (q ts).rest <:+ t :: ts :=
        ⟨rfl, (h ts).trans (List.suffix_cons t ts)⟩
      unfold statementWith
      dsimp only
      split
      · exact (agree_forStatement hs).cons hts
      · exact (agree_ifStatement hs).cons hts
      · exact htail forwards_printStatement
      · exact htail (forwards_returnStatement t)
      · exact (agree_whileStatement hs).cons hts
      · exact ((agree_block hd).map Stmt.block).cons hts
      · exact ⟨rfl, forwards_expressionStatement (t :: ts)⟩

theorem agree_declarationWith (hd : AgreeBelow k declaration declaration')
    (hs : AgreeBelow k statement statement') :
    AgreeBelow (k + 1) (declarationWith declaration statement)
      (declarationWith declaration' statement') := by
  intro ts hts
  have hstatement := agree_statementWith hd hs ts hts
  cases ts with
  | nil => exact hstatement
  | cons t ts =>
      unfold declarationWith
      dsimp only
      split
      · exact (agree_classDeclaration hd).cons hts
      · exact ((agree_functionDecl hd .function).map Stmt.function).cons hts
      · exact ⟨rfl, (forwards_variableDeclaration ts).trans (List.suffix_cons t ts)⟩
      · exact hstatement

theorem agree_nested (n : Nat) :
    AgreeBelow n (statementIn n) (statementIn (n + 1)) ∧
      AgreeBelow n (declarationIn n) (declarationIn (n + 1)) := by
  induction n with
  | zero =>
      exact ⟨fun ts hts => absurd hts (Nat.not_lt_zero _),
        fun ts hts => absurd hts (Nat.not_lt_zero _)⟩
  | succ n ih =>
      rw [statementIn, declarationIn, statementIn, declarationIn]
      exact ⟨agree_statementWith ih.2 ih.1, (agree_declarationWith ih.2 ih.1).recovering⟩

end Statements

/-- A statement, with as many nesting levels as it has tokens. -/
def statement : Statement :=
  fun ts => statementIn (ts.length + 1) ts

theorem statementIn_of_length_lt {n : Nat} {ts : List Token} (h : ts.length < n) :
    statementIn n ts = statement ts := by
  have hsuffices : BoundSuffices fun n => statementIn (n + 1) :=
    .of_step fun n => (agree_nested (n + 1)).1
  cases n with
  | zero => exact absurd h (Nat.not_lt_zero _)
  | succ n => exact hsuffices n ts (Nat.le_of_lt_succ h)

theorem declarationIn_of_length_lt {n : Nat} {ts : List Token} (h : ts.length < n) :
    declarationIn n ts = declaration ts := by
  have hsuffices : BoundSuffices fun n => declarationIn (n + 1) :=
    .of_step fun n => (agree_nested (n + 1)).2
  cases n with
  | zero => exact absurd h (Nat.not_lt_zero _)
  | succ n => exact hsuffices n ts (Nat.le_of_lt_succ h)

theorem agree_statement (n : Nat) : AgreeBelow n (statementIn n) statement :=
  fun ts hts => ⟨statementIn_of_length_lt hts, ((agree_nested n).1 ts hts).2⟩

theorem agree_declaration (n : Nat) : AgreeBelow n (declarationIn n) declaration :=
  fun ts hts => ⟨declarationIn_of_length_lt hts, ((agree_nested n).2 ts hts).2⟩

/-- The parts of a statement are statements and declarations, to any depth. -/
theorem statement_eq : statement = statementWith declaration statement := by
  funext ts
  have hparts := agree_statementWith (agree_declaration ts.length) (agree_statement ts.length)
  rw [statement, statementIn]
  exact (hparts ts (Nat.lt_succ_self _)).1

theorem declaration_eq : declaration = recovering (declarationWith declaration statement) := by
  funext ts
  have hparts := agree_declarationWith (agree_declaration ts.length) (agree_statement ts.length)
  rw [declaration, declarationIn]
  exact (hparts.recovering ts (Nat.lt_succ_self _)).1

/-! ### Rounds of loops -/

section Rounds

/-- Lists of one item more: only what follows the comma differs. -/
theorem agree_listFrom_succ {item : Parser α} (hitem : Forwards item) (excess : SyntaxError.Cause)
    (count n : Nat) :
    AgreeBelow (n + 1) (listFrom item excess count n) (listFrom item excess count (n + 1)) := by
  induction n generalizing count with
  | zero =>
      rw [listFrom, listFrom]
      apply agree_limited
      exact .after hitem fun a => .one rfl rfl
  | succ n ih =>
      rw [listFrom, listFrom]
      apply agree_limited
      refine .after hitem fun a => .accept (forwards_pure [a]).agree fun _ => ?_
      exact (ih (count + 1)).then_pure (a :: ·)

theorem suffices_listFrom {item : Parser α} (hitem : Forwards item) (excess : SyntaxError.Cause)
    (count : Nat) : BoundSuffices (listFrom item excess count) :=
  .of_step fun n => agree_listFrom_succ hitem excess count n

theorem suffices_suffixes {expression : Expression} (h : Forwards expression) (e : Expr Unit) :
    BoundSuffices fun n => suffixes expression n e := by
  refine .of_step fun n => ?_
  induction n generalizing e with
  | zero => exact .one rfl rfl
  | succ n ih =>
      refine .accept (forwards_pure e).agree fun t => ?_
      dsimp only
      split
      · exact .after (forwards_expect _ _) fun name => ih _
      · exact (agree_parenthesized h.agree _ _).bind fun listed => ih _

theorem suffices_operands (node : Expr Unit → Token → Expr Unit → Expr Unit)
    (operators : List Token.Kind) {operand : Expression} (h : Forwards operand) (left : Expr Unit) :
    BoundSuffices fun n => operands node operators operand n left := by
  refine .of_step fun n => ?_
  induction n generalizing left with
  | zero => exact .one rfl rfl
  | succ n ih => exact .accept (forwards_pure left).agree fun operator => .after h fun right => ih _

/-- An item that takes tokens leaves fewer of them to the rest of the list. -/
theorem agree_list_succ {γ : Type} {item : Parser α} {p q : Parser β} (f : α → β → γ) {n : Nat}
    (hitem : ∀ base, Moves base 1 item) (h : AgreeBelow (n + 1) p q) :
    AgreeBelow (n + 2) (item >>= fun a => p >>= fun b => pure (f a b))
      (item >>= fun a => q >>= fun b => pure (f a b)) :=
  (Forwards.of_moves 1 hitem).agree.bind_taking hitem (Nat.le_refl _) (Nat.succ_pos n) fun a =>
    h.then_pure (f a)

theorem suffices_declarations {declaration : Declaration}
    (h : ∀ base, Moves base 1 declaration) : BoundSuffices (declarations declaration) := by
  refine .of_step fun n => ?_
  induction n with
  | zero => exact .one rfl rfl
  | succ n ih =>
      intro ts hts
      cases ts with
      | nil => exact ⟨rfl, List.suffix_refl []⟩
      | cons t ts =>
          unfold declarations
          dsimp only
          split
          · exact ⟨rfl, List.suffix_refl (t :: ts)⟩
          · exact agree_list_succ (fun first others => first.toList ++ others) h ih (t :: ts) hts

theorem suffices_methods {declaration : Declaration}
    (h : ∀ base, Moves base 1 declaration) : BoundSuffices (methods declaration) := by
  have hmethod (base : List Token) : Moves base 1 (functionDecl declaration .method) :=
    RecoveryInvariant.keeps_functionDecl (I := withinTokens) (h base) .method
  refine .of_step fun n => ?_
  induction n with
  | zero => exact .one rfl rfl
  | succ n ih =>
      intro ts hts
      cases ts with
      | nil => exact ⟨rfl, List.suffix_refl []⟩
      | cons t ts =>
          unfold methods
          dsimp only
          split
          · exact ⟨rfl, List.suffix_refl (t :: ts)⟩
          · exact agree_list_succ (fun first others => first :: others) hmethod ih (t :: ts) hts

theorem suffices_program : BoundSuffices program := by
  have hdeclaration (base : List Token) : Moves base 1 Parser.declaration :=
    RecoveryInvariant.keeps_declaration (I := withinTokens)
  refine .of_step fun n => ?_
  induction n with
  | zero => exact .one rfl rfl
  | succ n ih =>
      intro ts hts
      cases ts with
      | nil => exact ⟨rfl, List.suffix_refl []⟩
      | cons t ts =>
          exact agree_list_succ (fun first others => first.toList ++ others) hdeclaration ih
            (t :: ts) hts

end Rounds

/-! ### The grammar without bounds -/

theorem Forwards.of_agree {p : Parser α} (h : ∀ k, AgreeBelow (k + 1) p p) : Forwards p :=
  fun ts => (h ts.length ts (Nat.lt_succ_self _)).2

theorem forwards_chain (c : Grammar.Chain)
    (h : Forwards (level Parser.expression c.operand)) :
    Forwards (level Parser.expression (.chain c)) := by
  rw [level_chain]
  exact .of_agree fun k => agree_leftAssociative _ _ h.agree

theorem forwards_level (l : Grammar.Level) : Forwards (level Parser.expression l) := by
  have hunary : Forwards (level Parser.expression .unary) :=
    .of_agree fun k => agree_unary forwards_expression.agree
  have hterm := forwards_chain .term (forwards_chain .factor hunary)
  have hequality := forwards_chain .equality (forwards_chain .comparison hterm)
  cases l with
  | assignment => exact .of_agree fun k => agree_assignment forwards_expression.agree
  | chain c =>
      cases c with
      | disjunction => exact forwards_chain .disjunction (forwards_chain .conjunction hequality)
      | conjunction => exact forwards_chain .conjunction hequality
      | equality => exact hequality
      | comparison => exact forwards_chain .comparison hterm
      | term => exact hterm
      | factor => exact forwards_chain .factor hunary
  | unary => exact hunary
  | call => exact .of_agree fun k => agree_call forwards_expression.agree
  | primary => exact .of_agree fun k => agree_primary forwards_expression.agree

/-- Counting cuts nothing short. The rules hold with all nesting levels, and a loop that has as many
rounds as there are tokens does what it does with more. -/
structure NothingCut : Prop where
  expression : Parser.expression = assignment Parser.expression
  statement : Parser.statement = statementWith Parser.declaration Parser.statement
  declaration : Parser.declaration =
    recovering (declarationWith Parser.declaration Parser.statement)
  arguments : BoundSuffices (listFrom Parser.expression .tooManyArguments 0)
  parameters : BoundSuffices (listFrom (expect .identifier .parameterName) .tooManyParams 0)
  suffixes (e : Expr Unit) : BoundSuffices fun n => Parser.suffixes Parser.expression n e
  operands (c : Grammar.Chain) (left : Expr Unit) : BoundSuffices fun n =>
    Parser.operands c.node c.operators (level Parser.expression c.operand) n left
  declarations : BoundSuffices (Parser.declarations Parser.declaration)
  methods : BoundSuffices (Parser.methods Parser.declaration)
  program : BoundSuffices Parser.program

theorem nothing_cut : NothingCut where
  expression := expression_eq
  statement := statement_eq
  declaration := declaration_eq
  arguments := suffices_listFrom forwards_expression _ 0
  parameters := suffices_listFrom (forwards_expect _ _) _ 0
  suffixes e := suffices_suffixes forwards_expression e
  operands c left := suffices_operands _ _ (forwards_level c.operand) left
  declarations := suffices_declarations fun _ =>
    RecoveryInvariant.keeps_declaration (I := withinTokens)
  methods := suffices_methods fun _ => RecoveryInvariant.keeps_declaration (I := withinTokens)
  program := suffices_program

end Lox.Parser
