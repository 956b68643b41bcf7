import Lox.Proofs.Parser.ExpressionSound

/-!
# What is derivable is read without faults

A phrase is read off the front of the tokens as long as the token behind it does not extend it. For
the levels that are loops the statement is about the loop: once a chain has been read the loop goes
on with it, so the left recursion of the grammar is followed from left to right.
-/

namespace Lox.Grammar

/-- The chains from a level on down to the tightest. -/
def Chain.tighter : Chain → List Chain
  | .disjunction => [.disjunction, .conjunction, .equality, .comparison, .term, .factor]
  | .conjunction => [.conjunction, .equality, .comparison, .term, .factor]
  | .equality => [.equality, .comparison, .term, .factor]
  | .comparison => [.comparison, .term, .factor]
  | .term => [.term, .factor]
  | .factor => [.factor]

/-- Kinds of tokens that extend an expression of a level when they stand behind it. -/
def Level.continues : Level → List Token.Kind
  | .assignment => .equal :: Chain.disjunction.tighter.flatMap Chain.operators ++ [.leftParen, .dot]
  | .chain c => c.tighter.flatMap Chain.operators ++ [.leftParen, .dot]
  | .unary | .call => [.leftParen, .dot]
  | .primary => []

theorem Stops.operand {c : Chain} {v : List Token} (h : Stops (Level.chain c).continues v) :
    Stops c.operand.continues v :=
  h.mono (by cases c <;> decide)

theorem Stops.operators {c : Chain} {v : List Token} (h : Stops (Level.chain c).continues v) :
    Stops c.operators v :=
  h.mono (by cases c <;> decide)

theorem stops_operator {c : Chain} {t : Token} (h : t.kind ∈ c.operators) (v : List Token) :
    Stops c.operand.continues (t :: v) := by
  refine stops_cons (fun hmem => ?_) v
  revert hmem h
  generalize t.kind = kind
  cases c <;> revert kind <;> decide

end Lox.Grammar

namespace Lox.Parser

open Grammar

/-! ### Lists between commas -/

theorem separated_imp {α : Type} {D E : List Token → α → Prop} {w : List Token} {items : List α}
    (h : Separated D w items) (hD : ∀ u a, u.length ≤ w.length → D u a → E u a) :
    Separated E w items := by
  induction h with
  | one h => exact .one (hD _ _ (Nat.le_refl _) h)
  | more h hcomma _ ih =>
      refine .more (hD _ _ (by simp) h) hcomma (ih fun u a hlen hu => hD u a ?_ hu)
      simp only [List.length_append, List.length_cons]
      omega

theorem listFrom_zero {α : Type} (item : Parser α) (excess : SyntaxError.Cause) {count : Nat}
    (hlimit : ¬listLimit ≤ count) :
    listFrom item excess count 0 = (do return [← item]) := by
  rw [listFrom, if_neg hlimit]

theorem listFrom_succ {α : Type} (item : Parser α) (excess : SyntaxError.Cause) {count : Nat}
    (hlimit : ¬listLimit ≤ count) (n : Nat) :
    listFrom item excess count (n + 1) = (do
      let a ← item
      match ← accept? [.comma] with
      | some _ => return a :: (← listFrom item excess (count + 1) n)
      | none => return [a]) := by
  rw [listFrom]
  exact if_neg hlimit

/-- A list of items is read if each item is read in front of a comma and of the end of the list. -/
theorem listFrom_of_separated {α : Type} {item : Parser α} {D : List Token → α → Prop}
    (hitem : ∀ u a t v, D u a → t.kind = .comma ∨ t.kind = .rightParen →
      item (u ++ t :: v) = .ok a (t :: v) [])
    (excess : SyntaxError.Cause) {right : Token} (hright : right.kind = .rightParen)
    (v : List Token) {w : List Token} {items : List α} (h : Separated D w items) (count n : Nat)
    (hcount : count + items.length ≤ maxItems) (hn : w.length ≤ n) :
    listFrom item excess count n (w ++ right :: v) = .ok items (right :: v) [] := by
  have hlimit : ¬listLimit ≤ count := by
    cases h <;> simp [listLimit, maxItems] at hcount ⊢ <;> omega
  induction h generalizing count n with
  | @one u a h =>
      have hread := hitem u a right v h (.inr hright)
      cases n with
      | zero =>
          rw [listFrom_zero item excess hlimit, bind_of_ok hread]
          rfl
      | succ n =>
          rw [listFrom_succ item excess hlimit, bind_of_ok hread]
          rw [bind_of_ok (accept?_of_stop (stops_cons (by simp [hright]) v))]
          rfl
  | @more u w comma a others h hcomma hothers ih =>
      have hread := hitem u a comma (w ++ right :: v) h (.inl hcomma)
      cases n with
      | zero => simp at hn
      | succ n =>
          have hrest : listFrom item excess (count + 1) n (w ++ right :: v) =
              .ok others (right :: v) [] := by
            simp only [List.length_append, List.length_cons] at hcount hn
            refine ih (count + 1) n (by omega) (by omega) ?_
            cases hothers <;> simp [listLimit, maxItems] at hcount ⊢ <;> omega
          rw [List.append_assoc, List.cons_append, listFrom_succ item excess hlimit,
            bind_of_ok hread]
          rw [bind_of_ok (accept?_of_mem (by simp [hcomma]) _)]
          dsimp only
          rw [bind_of_ok hrest]
          rfl

theorem parenthesized_of_separated {α : Type} {item : Parser α} {D : List Token → α → Prop}
    (hitem : ∀ u a t v, D u a → t.kind = .comma ∨ t.kind = .rightParen →
      item (u ++ t :: v) = .ok a (t :: v) [])
    (excess unclosed : SyntaxError.Cause) {right : Token} (hright : right.kind = .rightParen)
    (v : List Token) {w : List Token} {items : List α} (h : Separated D w items)
    (hlimit : items.length ≤ maxItems) (hbegin : ∃ t rest, w = t :: rest ∧ t.kind ≠ .rightParen) :
    parenthesized item excess unclosed (w ++ right :: v) = .ok (items, right) v [] := by
  have hlist : bounded (listFrom item excess 0) (w ++ right :: v) = .ok items (right :: v) [] :=
    listFrom_of_separated hitem excess hright v h 0 (w ++ right :: v).length
      (by simpa using hlimit) (by simp)
  have hsees : sees .rightParen (w ++ right :: v) = .ok false (w ++ right :: v) [] := by
    obtain ⟨t, rest, rfl, hkind⟩ := hbegin
    exact sees_of_ne hkind _
  rw [parenthesized, bind_of_ok hsees]
  simp only [Bool.false_eq_true, ↓reduceIte]
  rw [bind_of_ok hlist, bind_of_ok (expect_of_kind hright _ _)]
  rfl

theorem parenthesized_nil {α : Type} (item : Parser α) (excess unclosed : SyntaxError.Cause)
    {right : Token} (hright : right.kind = .rightParen) (v : List Token) :
    parenthesized item excess unclosed (right :: v) = .ok ([], right) v [] := by
  rw [parenthesized, bind_of_ok (sees_of_kind hright v)]
  simp only [↓reduceIte]
  rw [bind_of_ok rfl, bind_of_ok (expect_of_kind hright _ _)]
  rfl

/-! ### Expressions -/

/-- The parser of a level reads the expression in front of every list that does not extend it. -/
def Gives (l : Level) (u : List Token) (e : Expr Unit) : Prop :=
  ∀ n v, u.length ≤ n → Stops l.continues v → level (expressionIn n) l (u ++ v) = .ok e v []

/-- What holds of the parser that reads a phrase. For chains and calls it is a statement about their
loop, which has as many rounds left as there are tokens left. -/
def Phrase.Parses : (x : Phrase) → List Token → x.Tree → Prop
  | .level (.chain c), u, e =>
      ∀ n v, u.length ≤ n → Stops c.operand.continues v → ∃ k, v.length ≤ k ∧
        level (expressionIn n) (.chain c) (u ++ v) =
          operands c.node c.operators (level (expressionIn n) c.operand) k e v
  | .level .call, u, e =>
      BeginsWith startsCall u ∧ ∀ n v, u.length ≤ n → ∃ k, v.length ≤ k ∧
        call (expressionIn n) (u ++ v) = suffixes (expressionIn n) k e v
  | .level .primary, u, e =>
      BeginsWith startsCall u ∧ Gives .primary u e
  | .level .assignment, u, e => Gives .assignment u e
  | .level .unary, u, e => Gives .unary u e
  | .arguments, u, es => Separated (Gives .assignment) u es

theorem operands_of_stop {c : Chain} {v : List Token} (h : Stops c.operators v)
    (operand : Expression) (k : Nat) (e : Expr Unit) :
    operands c.node c.operators operand k e v = .ok e v [] := by
  cases k with
  | zero => rfl
  | succ k =>
      rw [operands, bind_of_ok (accept?_of_stop h)]
      rfl

theorem suffixes_of_stop {v : List Token} (h : Stops [.leftParen, .dot] v)
    (expression : Expression) (k : Nat) (e : Expr Unit) :
    suffixes expression k e v = .ok e v [] := by
  cases k with
  | zero => rfl
  | succ k =>
      rw [suffixes, bind_of_ok (accept?_of_stop h)]
      rfl

theorem gives_chain {c : Chain} {u : List Token} {e : Expr Unit}
    (h : Phrase.Parses (.level (.chain c)) u e) : Gives (.chain c) u e := by
  intro n v hn hstop
  obtain ⟨k, -, hk⟩ := h n v hn hstop.operand
  rw [hk]
  exact operands_of_stop hstop.operators _ k e

theorem gives_call {u : List Token} {e : Expr Unit} (h : Phrase.Parses (.level .call) u e) :
    Gives .call u e := by
  intro n v hn hstop
  obtain ⟨k, -, hk⟩ := h.2 n v hn
  exact hk.trans (suffixes_of_stop hstop _ k e)

theorem gives_of_parses {l : Level} {u : List Token} {e : Expr Unit}
    (h : Phrase.Parses (.level l) u e) : Gives l u e := by
  cases l with
  | assignment => exact h
  | chain c => exact gives_chain h
  | unary => exact h
  | call => exact gives_call h
  | primary => exact h.2

theorem parses_operand {c : Chain} {u : List Token} {e : Expr Unit}
    (h : Gives c.operand u e) : Phrase.Parses (.level (.chain c)) u e := by
  intro n v hn hstop
  refine ⟨v.length, Nat.le_refl _, ?_⟩
  rw [level_chain, leftAssociative, bind_of_ok (h n v hn hstop)]
  rfl

theorem parses_operator {c : Chain} {u w : List Token} {t : Token} {left right : Expr Unit}
    (hleft : Phrase.Parses (.level (.chain c)) u left) (ht : t.kind ∈ c.operators)
    (hright : Gives c.operand w right) :
    Phrase.Parses (.level (.chain c)) (u ++ t :: w) (c.node left t right) := by
  intro n v hn hstop
  simp only [List.length_append, List.length_cons] at hn
  obtain ⟨k, hk, heq⟩ := hleft n (t :: (w ++ v)) (by omega) (stops_operator ht _)
  cases k with
  | zero => simp at hk
  | succ k =>
      refine ⟨k, by simp only [List.length_cons, List.length_append] at hk; omega, ?_⟩
      rw [List.append_assoc, List.cons_append, heq, operands,
        bind_of_ok (accept?_of_mem ht (w ++ v))]
      dsimp only
      rw [bind_of_ok (hright n v (by omega) hstop)]

theorem unary_of_call {expression : Expression} {t : Token} (ht : isUnary t = false)
    (ts : List Token) : unary expression (t :: ts) = call expression (t :: ts) := by
  have hcall : (t :: ts).dropWhile isUnary = t :: ts := by simp [ht]
  have hnone : (t :: ts).takeWhile isUnary = [] := by simp [ht]
  rw [unary]
  simp only [hcall, hnone, List.foldr_nil]
  rw [bind_apply]
  cases call expression (t :: ts) with
  | ok e rest errors => exact congrArg (Parse.ok e rest) (List.append_nil errors)
  | failed rest errors => rfl

theorem gives_noUnary {u : List Token} {e : Expr Unit} (h : Phrase.Parses (.level .call) u e) :
    Gives .unary u e := by
  intro n v hn hstop
  obtain ⟨t, rest, rfl, ht⟩ := h.1
  have hunary : isUnary t = false := by
    revert ht
    unfold isUnary
    cases t.kind <;> decide
  exact (unary_of_call hunary _).trans (gives_call h n v hn hstop)

theorem unary_cons {expression : Expression} {t : Token} (ht : isUnary t = true) {ts rest : List Token}
    {e : Expr Unit} (h : unary expression ts = .ok e rest []) :
    unary expression (t :: ts) = .ok (.unary t e) rest [] := by
  rw [unary, bind_apply] at h ⊢
  rw [List.dropWhile_cons_of_pos ht]
  cases hcall : call expression (ts.dropWhile isUnary) with
  | failed left errors =>
      rw [hcall] at h
      cases h
  | ok inner left errors =>
      rw [hcall] at h
      have herrors : errors = [] := by
        have herr := congrArg Parse.errors h
        rw [errors_after] at herr
        exact (List.append_eq_nil_iff.mp herr).1
      subst herrors
      cases h
      rw [List.takeWhile_cons_of_pos ht]
      rfl

theorem gives_unary {t : Token} {u : List Token} {e : Expr Unit}
    (ht : t.kind = .bang ∨ t.kind = .minus) (h : Gives .unary u e) :
    Gives .unary (t :: u) (.unary t e) := by
  intro n v hn hstop
  exact unary_cons (by simpa [isUnary] using ht) (h n v (Nat.le_of_succ_le hn) hstop)

theorem parses_noCall {u : List Token} {e : Expr Unit} (h : Phrase.Parses (.level .primary) u e) :
    Phrase.Parses (.level .call) u e := by
  refine ⟨h.1, fun n v hn => ⟨v.length, Nat.le_refl _, ?_⟩⟩
  have hread : primary (expressionIn n) (u ++ v) = .ok e v [] :=
    h.2 n v hn fun _ _ _ hmem => nomatch hmem
  rw [call, bind_of_ok hread]
  rfl

theorem parses_get {u : List Token} {dot name : Token} {o : Expr Unit}
    (h : Phrase.Parses (.level .call) u o) (hdot : dot.kind = .dot)
    (hname : name.kind = .identifier) :
    Phrase.Parses (.level .call) (u ++ [dot, name]) (.get o name) := by
  refine ⟨h.1.append _, fun n v hn => ?_⟩
  simp only [List.length_append] at hn
  obtain ⟨k, hk, heq⟩ := h.2 n (dot :: name :: v) (by omega)
  cases k with
  | zero => simp at hk
  | succ k =>
      refine ⟨k, by simp only [List.length_cons] at hk; omega, ?_⟩
      rw [List.append_assoc]
      refine heq.trans ?_
      rw [suffixes, bind_of_ok (accept?_of_mem (by simp [hdot]) _)]
      simp only [hdot, ↓reduceIte]
      rw [bind_of_ok (expect_of_kind hname _ _)]

/-- Behind the callee the loop takes the list of arguments as a whole. -/
theorem parses_call {u w : List Token} {left right : Token} {f : Expr Unit}
    {arguments : List (Expr Unit)} (h : Phrase.Parses (.level .call) u f)
    (hleft : left.kind = .leftParen)
    (harguments : ∀ n v, w.length < n →
      parenthesized (expressionIn n) .tooManyArguments .argumentsEnd (w ++ right :: v) =
        .ok (arguments, right) v []) :
    Phrase.Parses (.level .call) (u ++ left :: w ++ [right]) (.call f right arguments) := by
  refine ⟨(h.1.append _).append _, fun n v hn => ?_⟩
  simp only [List.length_append, List.length_cons] at hn
  obtain ⟨k, hk, heq⟩ := h.2 n (left :: w ++ right :: v) (by omega)
  cases k with
  | zero => simp at hk
  | succ k =>
      refine ⟨k, by simp only [List.length_cons, List.length_append] at hk; omega, ?_⟩
      rw [List.append_assoc, List.append_assoc]
      refine heq.trans ?_
      rw [List.cons_append, suffixes, bind_of_ok (accept?_of_mem (by simp [hleft]) _)]
      simp only [hleft, reduceCtorEq, ↓reduceIte]
      rw [bind_of_ok (harguments n v (by omega))]

theorem expressionIn_of_gives {u : List Token} {e : Expr Unit} (h : Gives .assignment u e)
    {n : Nat} (hn : u.length < n) {v : List Token} (hstop : Stops Level.assignment.continues v) :
    expressionIn n (u ++ v) = .ok e v [] := by
  cases n with
  | zero => exact absurd hn (Nat.not_lt_zero _)
  | succ n => exact h n v (Nat.le_of_lt_succ hn) hstop

theorem arguments_of_separated {w : List Token} {es : List (Expr Unit)} {right : Token}
    (h : Separated (Gives .assignment) w es) (hbegin : BeginsWith startsExpression w)
    (hlimit : es.length ≤ maxItems) (hright : right.kind = .rightParen) (n : Nat) (v : List Token)
    (hn : w.length < n) :
    parenthesized (expressionIn n) .tooManyArguments .argumentsEnd (w ++ right :: v) =
      .ok (es, right) v [] := by
  have hseparated : Separated (fun u e => Gives .assignment u e ∧ u.length < n) w es :=
    separated_imp h fun u e hlen hu => ⟨hu, Nat.lt_of_le_of_lt hlen hn⟩
  refine parenthesized_of_separated ?_ _ _ hright v hseparated hlimit ?_
  · rintro u e t v ⟨hu, hlen⟩ ht
    refine expressionIn_of_gives hu hlen (stops_cons ?_ v)
    rcases ht with ht | ht <;> rw [ht] <;> decide
  · obtain ⟨t, rest, rfl, ht⟩ := hbegin
    refine ⟨t, rest, rfl, fun hkind => ?_⟩
    rw [hkind] at ht
    cases ht

theorem parses_group {left right : Token} {u : List Token} {e : Expr Unit}
    (hleft : left.kind = .leftParen) (h : Gives .assignment u e)
    (hright : right.kind = .rightParen) :
    Phrase.Parses (.level .primary) (left :: u ++ [right]) (.group e) := by
  refine ⟨⟨left, u ++ [right], rfl, by rw [hleft]; rfl⟩, fun n v hn _ => ?_⟩
  simp only [List.length_append, List.length_cons] at hn
  have hread := expressionIn_of_gives (n := n) h (by omega)
    (stops_cons (t := right) (by rw [hright]; decide) v)
  simp only [level, List.cons_append, List.append_assoc, List.nil_append, primary, hleft]
  rw [group, bind_of_ok hread, bind_of_ok (expect_of_kind hright _ _)]
  rfl

theorem parses_super {keyword dot method : Token} (hkeyword : keyword.kind = .superWord)
    (hdot : dot.kind = .dot) (hmethod : method.kind = .identifier) :
    Phrase.Parses (.level .primary) [keyword, dot, method] (.super keyword () method) := by
  refine ⟨⟨keyword, [dot, method], rfl, by rw [hkeyword]; rfl⟩, fun n v _ _ => ?_⟩
  simp only [level, List.cons_append, List.nil_append, primary, hkeyword]
  rw [superMethod, bind_of_ok (expect_of_kind hdot _ _), bind_of_ok (expect_of_kind hmethod _ _)]
  rfl

theorem parses_token {t : Token} {e : Expr Unit} (hstart : startsCall t.kind = true)
    (h : ∀ expression v, primary expression (t :: v) = .ok e v []) :
    Phrase.Parses (.level .primary) [t] e :=
  ⟨⟨t, [], rfl, hstart⟩, fun _ v _ _ => h _ v⟩

theorem gives_disjunction {u : List Token} {e : Expr Unit} (h : Phrase.Parses (.level .call) u e) :
    Gives (.chain .disjunction) u e :=
  have hfactor := gives_chain (c := .factor) (parses_operand (gives_noUnary h))
  have hterm := gives_chain (c := .term) (parses_operand hfactor)
  have hcomparison := gives_chain (c := .comparison) (parses_operand hterm)
  have hequality := gives_chain (c := .equality) (parses_operand hcomparison)
  have hconjunction := gives_chain (c := .conjunction) (parses_operand hequality)
  gives_chain (parses_operand hconjunction)

theorem gives_noAssignment {u : List Token} {e : Expr Unit} (h : Gives (.chain .disjunction) u e) :
    Gives .assignment u e := by
  intro n v hn hstop
  have hread : disjunction (expressionIn n) (u ++ v) = .ok e v [] :=
    h n v hn (hstop.mono (by decide))
  have hequal : Stops [.equal] v := hstop.mono (by decide)
  simp only [level]
  rw [assignment, bind_of_ok hread, bind_of_ok rfl, bind_of_ok (accept?_of_stop hequal)]
  rfl

theorem gives_assignTo? {u w : List Token} {equal : Token} {target value e : Expr Unit}
    (htarget : Gives (.chain .disjunction) u target) (hequal : equal.kind = .equal)
    (hvalue : Gives .assignment w value) (h : assignTo? target value = some e) :
    Gives .assignment (u ++ equal :: w) e := by
  intro n v hn hstop
  simp only [List.length_append, List.length_cons] at hn
  have hread : disjunction (expressionIn n) (u ++ equal :: (w ++ v)) =
      .ok target (equal :: (w ++ v)) [] :=
    htarget n _ (by omega) (stops_cons (by rw [hequal]; decide) _)
  have hnested := expressionIn_of_gives (n := n) hvalue (by omega) hstop
  simp only [level, List.append_assoc, List.cons_append]
  rw [assignment, bind_of_ok hread, bind_of_ok rfl,
    bind_of_ok (accept?_of_mem (by simp [hequal]) _)]
  dsimp only
  rw [bind_of_ok hnested]
  simp only [h]
  rfl

theorem parses_of_derives {x : Phrase} {u : List Token} {e : x.Tree} (h : x.Derives u e) :
    Phrase.Parses x u e := by
  induction h with
  | @assignName name _ _ _ hname hequal _ ih =>
      have hread : Phrase.Parses (.level .primary) [name] (.read name ()) :=
        parses_token (by rw [hname]; rfl) fun _ v => by simp [primary, hname]
      exact gives_assignTo? (gives_disjunction (parses_noCall hread)) hequal ih rfl
  | assignField _ hdot hname hequal _ ihobject ihvalue =>
      have hget := gives_disjunction (parses_get ihobject hdot hname)
      have hset := gives_assignTo? hget hequal ihvalue rfl
      rw [List.append_assoc] at hset
      exact hset
  | noAssignment _ ih => exact gives_noAssignment (gives_chain ih)
  | operator _ hoperator _ ihleft ihright =>
      exact parses_operator ihleft hoperator (gives_of_parses ihright)
  | operand _ ih => exact parses_operand (gives_of_parses ih)
  | unary hoperator _ ih => exact gives_unary hoperator ih
  | noUnary _ ih => exact gives_noUnary ih
  | callNothing _ hleft hright ih =>
      simpa using parses_call (w := []) ih hleft fun n v _ => parenthesized_nil _ _ _ hright v
  | callWith _ hleft harguments hlimit hright ih iharguments =>
      exact parses_call ih hleft
        (arguments_of_separated iharguments harguments.begins hlimit hright)
  | get _ hdot hname ih => exact parses_get ih hdot hname
  | noCall _ ih => exact parses_noCall ih
  | falseWord h | trueWord h | nilWord h | this h | name h =>
      exact parses_token (by rw [h]; rfl) fun _ v => by simp [primary, h]
  | literal h =>
      rcases h with h | h <;>
        exact parses_token (by rw [h]; rfl) fun _ v => by simp [primary, h]
  | group hleft _ hright ih => exact parses_group hleft ih hright
  | super hkeyword hdot hmethod => exact parses_super hkeyword hdot hmethod
  | argument _ ih => exact .one ih
  | arguments _ hcomma _ ih ihothers => exact .more ih hcomma ihothers

/-- An expression is read in front of every list that does not extend it. -/
theorem expression_of_derives {u : List Token} {e : Expr Unit} (h : Grammar.Expression u e)
    {v : List Token} (hstop : Stops Level.assignment.continues v) :
    expression (u ++ v) = .ok e v [] := by
  have hlength : u.length ≤ (u ++ v).length := by
    rw [List.length_append]
    omega
  exact expressionIn_of_gives (parses_of_derives h) (by omega) hstop

end Lox.Parser
