import Lox.Proofs.Grammar.Expression
import Lox.Proofs.Parser.Reads

/-!
# What is read without faults is derivable

Each parser takes a phrase of the grammar off the front of the tokens. The loops carry what they
have read so far: a chain of operands, or an expression with its suffixes, is extended by one step
at a time.
-/

namespace Lox.Parser

open Grammar

/-- The parser takes a list off the front that `D` relates to the value it yields. -/
def Takes {α : Type} (p : Parser α) (D : List Token → α → Prop) : Prop :=
  ∀ ts, Reads p ts fun a rest => ∃ u, ts = u ++ rest ∧ D u a

/-! ### Lists between commas -/

theorem takes_listFrom {α : Type} {item : Parser α} {D : List Token → α → Prop}
    (hitem : Takes item D) (excess : SyntaxError.Cause) (n count : Nat) :
    Takes (listFrom item excess count n) fun u items =>
      Separated D u items ∧ count + items.length ≤ maxItems := by
  induction n generalizing count with
  | zero =>
      intro ts
      rw [listFrom]
      split
      case isTrue => exact reads_bind (reads_here (reads_bind reads_report))
      case isFalse hlimit =>
        refine reads_bind ((hitem ts).mono ?_)
        rintro a rest ⟨u, rfl, hu⟩
        refine reads_pure ⟨u, rfl, .one hu, ?_⟩
        unfold listLimit at hlimit
        rw [List.length_singleton, maxItems]
        omega
  | succ n ih =>
      intro ts
      rw [listFrom]
      split
      case isTrue => exact reads_bind (reads_here (reads_bind reads_report))
      case isFalse hlimit =>
        refine reads_bind ((hitem ts).mono ?_)
        rintro a rest ⟨u, rfl, hu⟩
        refine reads_bind (reads_accept? (fun _ => ?_) ?_)
        · refine reads_pure ⟨u, rfl, .one hu, ?_⟩
          unfold listLimit at hlimit
          rw [List.length_singleton, maxItems]
          omega
        · rintro comma rest rfl hcomma
          refine reads_bind ((ih (count + 1) rest).mono ?_)
          rintro others rest ⟨w, rfl, hw, hcount⟩
          refine reads_pure ⟨u ++ comma :: w, by simp, .more hu (by simpa using hcomma) hw, ?_⟩
          simp only [List.length_cons]
          omega

/-- What stands between an opening parenthesis and the end of the list that it opens. -/
inductive Listed {α : Type} (D : List Token → α → Prop) : List Token → List α × Token → Prop where
  | nothing {right : Token} (hright : right.kind = .rightParen) : Listed D [right] ([], right)
  | items {u : List Token} {as : List α} {right : Token} (h : Separated D u as)
      (hlimit : as.length ≤ maxItems) (hright : right.kind = .rightParen) :
      Listed D (u ++ [right]) (as, right)

theorem takes_parenthesized {α : Type} {item : Parser α} {D : List Token → α → Prop}
    (hitem : Takes item D) (excess unclosed : SyntaxError.Cause) :
    Takes (parenthesized item excess unclosed) (Listed D) := by
  intro ts
  refine reads_bind (reads_sees ?_)
  split
  · refine reads_bind (reads_pure (reads_bind (reads_expect ?_)))
    rintro right rest rfl hright
    exact reads_pure ⟨[right], rfl, .nothing hright⟩
  · refine reads_bind (reads_bounded fun n => ?_)
    refine (takes_listFrom hitem excess n 0 ts).mono ?_
    rintro items rest ⟨u, rfl, hu, hlimit⟩
    refine reads_bind (reads_expect ?_)
    rintro right rest rfl hright
    exact reads_pure ⟨u ++ [right], by simp, .items hu (by simpa using hlimit) hright⟩

/-! ### Expressions -/

section Expressions

variable {expression : Expression}

theorem takes_superMethod {keyword : Token} (hkeyword : keyword.kind = .superWord)
    (ts : List Token) :
    Reads (superMethod keyword) ts fun e rest =>
      ∃ u, ts = u ++ rest ∧ Level.primary.Derives (keyword :: u) e := by
  refine reads_bind (reads_expect ?_)
  rintro dot rest rfl hdot
  refine reads_bind (reads_expect ?_)
  rintro method rest rfl hmethod
  exact reads_pure ⟨[dot, method], rfl, .super hkeyword hdot hmethod⟩

theorem takes_group (hexpression : Takes expression Grammar.Expression) {left : Token}
    (hleft : left.kind = .leftParen) (ts : List Token) :
    Reads (group expression) ts fun e rest =>
      ∃ u, ts = u ++ rest ∧ Level.primary.Derives (left :: u) e := by
  refine reads_bind ((hexpression ts).mono ?_)
  rintro e rest ⟨u, rfl, hu⟩
  refine reads_bind (reads_expect ?_)
  rintro right rest rfl hright
  exact reads_pure ⟨u ++ [right], by simp, .group hleft hu hright⟩

theorem Reads.cons {α : Type} {p : Parser α} {q : Parser α} {t : Token} {ts : List Token}
    {D : List Token → α → List Token → Prop} (hp : p (t :: ts) = q ts)
    (h : Reads q ts fun a rest => ∃ u, ts = u ++ rest ∧ D (t :: u) a rest) :
    Reads p (t :: ts) fun a rest => ∃ u, t :: ts = u ++ rest ∧ D u a rest := by
  intro herrors
  rw [hp] at herrors ⊢
  obtain ⟨a, rest, heq, u, rfl, hu⟩ := h herrors
  exact ⟨a, rest, heq, t :: u, rfl, hu⟩

theorem takes_primary (hexpression : Takes expression Grammar.Expression) :
    Takes (primary expression) Level.primary.Derives := by
  intro ts
  cases ts with
  | nil => exact fun herrors => nomatch herrors
  | cons t ts =>
      unfold Reads primary
      dsimp only
      cases hkind : t.kind
      case falseWord => exact fun _ => ⟨_, ts, rfl, [t], rfl, .falseWord hkind⟩
      case trueWord => exact fun _ => ⟨_, ts, rfl, [t], rfl, .trueWord hkind⟩
      case nilWord => exact fun _ => ⟨_, ts, rfl, [t], rfl, .nilWord hkind⟩
      case number => exact fun _ => ⟨_, ts, rfl, [t], rfl, .literal (.inl hkind)⟩
      case string => exact fun _ => ⟨_, ts, rfl, [t], rfl, .literal (.inr hkind)⟩
      case thisWord => exact fun _ => ⟨_, ts, rfl, [t], rfl, .this hkind⟩
      case identifier => exact fun _ => ⟨_, ts, rfl, [t], rfl, .name hkind⟩
      case superWord =>
        exact Reads.cons (p := fun _ => superMethod t ts) rfl (takes_superMethod hkind ts)
      case leftParen =>
        exact Reads.cons (p := fun _ => group expression ts) rfl (takes_group hexpression hkind ts)
      all_goals exact reads_fail

/-- The loop over suffixes extends the expression that it starts with. -/
theorem takes_suffixes (hexpression : Takes expression Grammar.Expression) (n : Nat)
    {u : List Token} {e : Expr Unit} (hu : Level.call.Derives u e) (ts : List Token) :
    Reads (suffixes expression n e) ts fun e rest =>
      ∃ w, ts = w ++ rest ∧ Level.call.Derives (u ++ w) e := by
  induction n generalizing u e ts with
  | zero => exact reads_pure ⟨[], rfl, by simpa using hu⟩
  | succ n ih =>
      rw [suffixes]
      refine reads_bind (reads_accept? (fun _ => reads_pure ⟨[], rfl, by simpa using hu⟩) ?_)
      rintro t rest rfl hkind
      dsimp only
      split
      case isTrue hdot =>
        refine reads_bind (reads_expect ?_)
        rintro name rest rfl hname
        refine (ih (.get hu hdot hname) rest).mono ?_
        rintro e rest ⟨w, rfl, hw⟩
        exact ⟨t :: name :: w, rfl, by simpa using hw⟩
      case isFalse hdot =>
        have hleft : t.kind = .leftParen := by simpa [hdot] using hkind
        refine reads_bind ((takes_parenthesized hexpression _ _ rest).mono ?_)
        rintro ⟨arguments, right⟩ rest ⟨v, rfl, hv⟩
        have hcall : Level.call.Derives (u ++ t :: v) (.call e right arguments) := by
          cases hv with
          | nothing hright => exact .callNothing hu hleft hright
          | items h hlimit hright =>
              simpa using Phrase.Derives.callWith hu hleft h.arguments hlimit hright
        refine (ih hcall rest).mono ?_
        rintro e rest ⟨w, rfl, hw⟩
        exact ⟨t :: v ++ w, by simp, by simpa using hw⟩

theorem takes_call (hexpression : Takes expression Grammar.Expression) :
    Takes (call expression) Level.call.Derives := by
  intro ts
  refine reads_bind ((takes_primary hexpression ts).mono ?_)
  rintro e rest ⟨u, rfl, hu⟩
  refine reads_bounded fun n => (takes_suffixes hexpression n (.noCall hu) rest).mono ?_
  rintro e rest ⟨w, rfl, hw⟩
  exact ⟨u ++ w, by simp, hw⟩

theorem derives_unary_foldr {ops u : List Token} {e : Expr Unit}
    (hops : ∀ t ∈ ops, isUnary t = true) (hu : Level.unary.Derives u e) :
    Level.unary.Derives (ops ++ u) (ops.foldr Expr.unary e) := by
  induction ops with
  | nil => exact hu
  | cons t ops ih =>
      have ht : isUnary t = true := hops t (by simp)
      refine .unary (by simpa [isUnary] using ht) (ih fun t' hmem => hops t' (by simp [hmem]))

theorem takes_unary (hexpression : Takes expression Grammar.Expression) :
    Takes (unary expression) Level.unary.Derives := by
  intro ts
  refine reads_bind ((takes_call hexpression _).mono ?_)
  rintro e rest ⟨u, hts, hu⟩
  refine reads_pure ⟨ts.takeWhile isUnary ++ u, ?_, ?_⟩
  · rw [List.append_assoc, ← hts, List.takeWhile_append_dropWhile]
  · exact derives_unary_foldr (List.all_eq_true.mp List.all_takeWhile) (.noUnary hu)

/-- The parser of each level, given that of nested expressions. -/
def level (expression : Expression) : Level → Expression
  | .assignment => assignment expression
  | .chain .disjunction => disjunction expression
  | .chain .conjunction => conjunction expression
  | .chain .equality => equality expression
  | .chain .comparison => comparison expression
  | .chain .term => term expression
  | .chain .factor => factor expression
  | .unary => unary expression
  | .call => call expression
  | .primary => primary expression

theorem level_chain (expression : Expression) (c : Chain) :
    level expression (.chain c) =
      leftAssociative c.node c.operators (level expression c.operand) := by
  cases c <;> rfl

/-- The loop over operands extends the chain that it starts with. -/
theorem takes_operands {c : Chain} {operand : Expression} (hoperand : Takes operand c.operand.Derives)
    (n : Nat) {u : List Token} {left : Expr Unit} (hu : (Level.chain c).Derives u left)
    (ts : List Token) :
    Reads (operands c.node c.operators operand n left) ts fun e rest =>
      ∃ w, ts = w ++ rest ∧ (Level.chain c).Derives (u ++ w) e := by
  induction n generalizing u left ts with
  | zero => exact reads_pure ⟨[], rfl, by simpa using hu⟩
  | succ n ih =>
      rw [operands]
      refine reads_bind (reads_accept? (fun _ => reads_pure ⟨[], rfl, by simpa using hu⟩) ?_)
      rintro t rest rfl hkind
      refine reads_bind ((hoperand rest).mono ?_)
      rintro right rest ⟨v, rfl, hv⟩
      refine (ih (.operator hu hkind hv) rest).mono ?_
      rintro e rest ⟨w, rfl, hw⟩
      exact ⟨t :: v ++ w, by simp, by simpa using hw⟩

theorem takes_chain {c : Chain} (hoperand : Takes (level expression c.operand) c.operand.Derives) :
    Takes (level expression (.chain c)) (Level.chain c).Derives := by
  intro ts
  rw [level_chain]
  refine reads_bind ((hoperand ts).mono ?_)
  rintro left rest ⟨u, rfl, hu⟩
  refine reads_bounded fun n => (takes_operands hoperand n (.operand hu) rest).mono ?_
  rintro e rest ⟨w, rfl, hw⟩
  exact ⟨u ++ w, by simp, hw⟩

theorem takes_disjunction (hexpression : Takes expression Grammar.Expression) :
    Takes (disjunction expression) (Level.chain .disjunction).Derives :=
  have hfactor := takes_chain (c := .factor) (takes_unary hexpression)
  have hterm := takes_chain (c := .term) hfactor
  have hcomparison := takes_chain (c := .comparison) hterm
  have hequality := takes_chain (c := .equality) hcomparison
  have hconjunction := takes_chain (c := .conjunction) hequality
  takes_chain (c := .disjunction) hconjunction

end Expressions

/-! ### Assignment

A target is read as an expression first. Only two trees are accepted as targets, and each of them has
one derivation below assignment. -/

/-- How an expression was derived, if its tree is that of a target. -/
def Target (u : List Token) : Expr Unit → Prop
  | .read name _ => u = [name] ∧ name.kind = .identifier
  | .get object name =>
      ∃ w dot, u = w ++ [dot, name] ∧ Level.call.Derives w object ∧ dot.kind = .dot ∧
        name.kind = .identifier
  | _ => True

def Phrase.Targets : (x : Phrase) → List Token → x.Tree → Prop
  | .level .assignment, _, _ => True
  | .level (.chain _), u, e => Target u e
  | .level .unary, u, e => Target u e
  | .level .call, u, e => Target u e
  | .level .primary, u, e => Target u e
  | .arguments, _, _ => True

theorem targets_of_derives {x : Phrase} {u : List Token} {e : x.Tree} (h : x.Derives u e) :
    Phrase.Targets x u e := by
  induction h with
  | @operator c _ _ _ _ _ _ _ _ _ _ => cases c <;> trivial
  | @operand c _ _ _ ih => cases c <;> exact ih
  | noUnary _ ih => exact ih
  | noCall _ ih => exact ih
  | @get u dot name _ hobject hdot hname _ => exact ⟨u, dot, rfl, hobject, hdot, hname⟩
  | name h => exact ⟨rfl, h⟩
  | literal h => trivial
  | _ => trivial

theorem target_of_disjunction {u : List Token} {e : Expr Unit}
    (h : (Level.chain .disjunction).Derives u e) : Target u e :=
  targets_of_derives h

theorem derives_assignTo? {u w : List Token} {equal : Token} {target value e : Expr Unit}
    (htarget : (Level.chain .disjunction).Derives u target) (hequal : equal.kind = .equal)
    (hvalue : Grammar.Expression w value) (h : assignTo? target value = some e) :
    Grammar.Expression (u ++ equal :: w) e := by
  have hshape := target_of_disjunction htarget
  cases target with
  | read name site =>
      obtain ⟨rfl, hname⟩ := hshape
      cases h
      exact .assignName hname hequal hvalue
  | get object name =>
      obtain ⟨v, dot, rfl, hobject, hdot, hname⟩ := hshape
      cases h
      simpa using Phrase.Derives.assignField hobject hdot hname hequal hvalue
  | _ => cases h

theorem takes_assignment {expression : Expression}
    (hexpression : Takes expression Grammar.Expression) :
    Takes (assignment expression) Grammar.Expression := by
  intro ts
  refine reads_bind ((takes_disjunction hexpression ts).mono ?_)
  rintro target rest ⟨u, rfl, hu⟩
  refine reads_bind (reads_here (reads_bind (reads_accept? ?_ ?_)))
  · exact fun _ => reads_pure ⟨u, rfl, .noAssignment hu⟩
  · rintro equal rest rfl hequal
    refine reads_bind ((hexpression rest).mono ?_)
    rintro value rest ⟨w, rfl, hw⟩
    cases hassign : assignTo? target value with
    | none => exact reads_bind reads_report
    | some e =>
        refine reads_pure ⟨u ++ equal :: w, by simp, ?_⟩
        exact derives_assignTo? hu (by simpa using hequal) hw hassign

theorem takes_expressionIn (n : Nat) : Takes (expressionIn n) Grammar.Expression := by
  induction n with
  | zero => exact fun _ => reads_fail
  | succ n ih => exact takes_assignment ih

theorem takes_expression : Takes expression Grammar.Expression :=
  fun ts => takes_expressionIn (ts.length + 1) ts

end Lox.Parser
