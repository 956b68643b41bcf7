import Lox.Tree.Grammar.Expression

/-!
# The grammar of expressions

Which token lists are expressions of which level, and the tree that each of them denotes. The rules
say nothing about how a list is read. Binary and logical levels are left recursive, so their trees
lean to the left; assignment and unary operators lean to the right.
-/

namespace Lox.Grammar

/-- Levels that are chains of operands with operators between them, from the loosest to the
tightest. -/
inductive Chain where
  | disjunction
  | conjunction
  | equality
  | comparison
  | term
  | factor

inductive Level where
  | assignment
  | chain (c : Chain)
  | unary
  | call
  | primary

namespace Chain

def operators : Chain → List Token.Kind
  | .disjunction => [.orWord]
  | .conjunction => [.andWord]
  | .equality => [.bangEqual, .equalEqual]
  | .comparison => [.greater, .greaterEqual, .less, .lessEqual]
  | .term => [.minus, .plus]
  | .factor => [.slash, .star]

/-- The level of the operands, which binds tighter by one. -/
def operand : Chain → Level
  | .disjunction => .chain .conjunction
  | .conjunction => .chain .equality
  | .equality => .chain .comparison
  | .comparison => .chain .term
  | .term => .chain .factor
  | .factor => .unary

def node : Chain → Expr Unit → Token → Expr Unit → Expr Unit
  | .disjunction | .conjunction => .logical
  | .equality | .comparison | .term | .factor => .binary

end Chain

/-- The most arguments or parameters that a list may have. -/
def maxItems : Nat := 255

/-- What the rules for expressions derive: an expression, or arguments between commas. -/
inductive Phrase where
  | level (l : Level)
  | arguments

abbrev Phrase.Tree : Phrase → Type
  | .level _ => Expr Unit
  | .arguments => List (Expr Unit)

inductive Phrase.Derives : (x : Phrase) → List Token → x.Tree → Prop where
  | assignName {name equal : Token} {u : List Token} {e : Expr Unit}
      (hname : name.kind = .identifier) (hequal : equal.kind = .equal)
      (hvalue : Derives (.level .assignment) u e) :
      Derives (.level .assignment) (name :: equal :: u) (.assign name () e)
  | assignField {u w : List Token} {dot name equal : Token} {o e : Expr Unit}
      (hobject : Derives (.level .call) u o) (hdot : dot.kind = .dot)
      (hname : name.kind = .identifier) (hequal : equal.kind = .equal)
      (hvalue : Derives (.level .assignment) w e) :
      Derives (.level .assignment) (u ++ dot :: name :: equal :: w) (.set o name e)
  | noAssignment {u : List Token} {e : Expr Unit}
      (h : Derives (.level (.chain .disjunction)) u e) : Derives (.level .assignment) u e
  | operator {c : Chain} {u w : List Token} {t : Token} {l r : Expr Unit}
      (hleft : Derives (.level (.chain c)) u l) (hoperator : t.kind ∈ c.operators)
      (hright : Derives (.level c.operand) w r) :
      Derives (.level (.chain c)) (u ++ t :: w) (c.node l t r)
  | operand {c : Chain} {u : List Token} {e : Expr Unit}
      (h : Derives (.level c.operand) u e) : Derives (.level (.chain c)) u e
  | unary {t : Token} {u : List Token} {e : Expr Unit}
      (hoperator : t.kind = .bang ∨ t.kind = .minus) (h : Derives (.level .unary) u e) :
      Derives (.level .unary) (t :: u) (.unary t e)
  | noUnary {u : List Token} {e : Expr Unit}
      (h : Derives (.level .call) u e) : Derives (.level .unary) u e
  | callNothing {u : List Token} {left right : Token} {f : Expr Unit}
      (hcallee : Derives (.level .call) u f) (hleft : left.kind = .leftParen)
      (hright : right.kind = .rightParen) :
      Derives (.level .call) (u ++ [left, right]) (.call f right [])
  | callWith {u w : List Token} {left right : Token} {f : Expr Unit} {es : List (Expr Unit)}
      (hcallee : Derives (.level .call) u f) (hleft : left.kind = .leftParen)
      (harguments : Derives .arguments w es) (hlimit : es.length ≤ maxItems)
      (hright : right.kind = .rightParen) :
      Derives (.level .call) (u ++ left :: w ++ [right]) (.call f right es)
  | get {u : List Token} {dot name : Token} {o : Expr Unit}
      (hobject : Derives (.level .call) u o) (hdot : dot.kind = .dot)
      (hname : name.kind = .identifier) :
      Derives (.level .call) (u ++ [dot, name]) (.get o name)
  | noCall {u : List Token} {e : Expr Unit}
      (h : Derives (.level .primary) u e) : Derives (.level .call) u e
  | falseWord {t : Token} (h : t.kind = .falseWord) :
      Derives (.level .primary) [t] (.literal (.bool false))
  | trueWord {t : Token} (h : t.kind = .trueWord) :
      Derives (.level .primary) [t] (.literal (.bool true))
  | nilWord {t : Token} (h : t.kind = .nilWord) : Derives (.level .primary) [t] (.literal .nil)
  | this {t : Token} (h : t.kind = .thisWord) : Derives (.level .primary) [t] (.this t ())
  | literal {t : Token} (h : t.kind = .number ∨ t.kind = .string) :
      Derives (.level .primary) [t] (.literal t.literal)
  | name {t : Token} (h : t.kind = .identifier) : Derives (.level .primary) [t] (.read t ())
  | group {left right : Token} {u : List Token} {e : Expr Unit}
      (hleft : left.kind = .leftParen) (h : Derives (.level .assignment) u e)
      (hright : right.kind = .rightParen) :
      Derives (.level .primary) (left :: u ++ [right]) (.group e)
  | super {keyword dot method : Token} (hkeyword : keyword.kind = .superWord)
      (hdot : dot.kind = .dot) (hmethod : method.kind = .identifier) :
      Derives (.level .primary) [keyword, dot, method] (.super keyword () method)
  | argument {u : List Token} {e : Expr Unit} (h : Derives (.level .assignment) u e) :
      Derives .arguments u [e]
  | arguments {u w : List Token} {comma : Token} {e : Expr Unit} {es : List (Expr Unit)}
      (h : Derives (.level .assignment) u e) (hcomma : comma.kind = .comma)
      (hothers : Derives .arguments w es) : Derives .arguments (u ++ comma :: w) (e :: es)

/-- Phrases between commas, at least one. -/
inductive Separated {α : Type} (D : List Token → α → Prop) : List Token → List α → Prop where
  | one {u : List Token} {a : α} (h : D u a) : Separated D u [a]
  | more {u w : List Token} {comma : Token} {a : α} {others : List α} (h : D u a)
      (hcomma : comma.kind = .comma) (hothers : Separated D w others) :
      Separated D (u ++ comma :: w) (a :: others)

/-- The token list is an expression of that level and denotes the tree. -/
abbrev Level.Derives (l : Level) (u : List Token) (e : Expr Unit) : Prop :=
  Phrase.Derives (.level l) u e

/-- An expression of the loosest level. -/
abbrev Expression (u : List Token) (e : Expr Unit) : Prop :=
  Level.assignment.Derives u e

theorem Separated.arguments {u : List Token} {es : List (Expr Unit)}
    (h : Separated Expression u es) : Phrase.arguments.Derives u es := by
  induction h with
  | one h => exact .argument h
  | more h hcomma _ ih => exact .arguments h hcomma ih

/-! ### How expressions begin -/

/-- Kinds of tokens with which an expression without unary operators can begin. -/
def startsCall : Token.Kind → Bool
  | .falseWord | .trueWord | .nilWord | .thisWord | .number | .string | .identifier | .leftParen
  | .superWord => true
  | _ => false

/-- Kinds of tokens with which an expression can begin. -/
def startsExpression (kind : Token.Kind) : Bool :=
  kind == .bang || kind == .minus || startsCall kind

def Phrase.starts : Phrase → Token.Kind → Bool
  | .level .call | .level .primary => startsCall
  | _ => startsExpression

theorem Phrase.startsExpression_of_starts {x : Phrase} {kind : Token.Kind}
    (h : x.starts kind = true) : startsExpression kind = true := by
  unfold Phrase.starts at h
  split at h
  · simp [startsExpression, h]
  · simp [startsExpression, h]
  · exact h

/-- The first token is of a kind that satisfies `p`. -/
def BeginsWith (p : Token.Kind → Bool) (u : List Token) : Prop :=
  ∃ t rest, u = t :: rest ∧ p t.kind = true

theorem BeginsWith.append {p : Token.Kind → Bool} {u : List Token} (h : BeginsWith p u)
    (w : List Token) : BeginsWith p (u ++ w) := by
  obtain ⟨t, rest, rfl, hp⟩ := h
  exact ⟨t, rest ++ w, rfl, hp⟩

theorem BeginsWith.mono {p q : Token.Kind → Bool} {u : List Token} (h : BeginsWith p u)
    (hpq : ∀ kind, p kind = true → q kind = true) : BeginsWith q u := by
  obtain ⟨t, rest, rfl, hp⟩ := h
  exact ⟨t, rest, rfl, hpq _ hp⟩

/-- The list does not begin with a token of one of the kinds. -/
def Stops (kinds : List Token.Kind) (v : List Token) : Prop :=
  ∀ t rest, v = t :: rest → t.kind ∉ kinds

theorem Stops.mono {kinds others : List Token.Kind} {v : List Token} (h : Stops kinds v)
    (hsub : ∀ kind ∈ others, kind ∈ kinds) : Stops others v :=
  fun t rest hv hmem => h t rest hv (hsub _ hmem)

theorem stops_cons {kinds : List Token.Kind} {t : Token} (h : t.kind ∉ kinds) (v : List Token) :
    Stops kinds (t :: v) := by
  intro t' rest heq
  cases heq
  exact h

theorem BeginsWith.stops {p : Token.Kind → Bool} {u : List Token} (h : BeginsWith p u)
    {kinds : List Token.Kind} (hp : ∀ kind ∈ kinds, p kind = false) : Stops kinds u := by
  obtain ⟨t, rest, rfl, ht⟩ := h
  refine stops_cons (fun hmem => ?_) rest
  rw [hp _ hmem] at ht
  cases ht

theorem Phrase.Derives.begins {x : Phrase} {u : List Token} {e : x.Tree} (h : x.Derives u e) :
    BeginsWith x.starts u := by
  induction h with
  | assignName hname _ _ _ => exact ⟨_, _, rfl, by rw [hname]; rfl⟩
  | assignField _ _ _ _ _ ih _ => exact (ih.append _).mono fun _ => startsExpression_of_starts
  | noAssignment _ ih => exact ih
  | operator _ _ _ ih _ => exact ih.append _
  | operand _ ih => exact ih.mono fun _ => startsExpression_of_starts
  | unary hoperator _ _ =>
      refine ⟨_, _, rfl, ?_⟩
      rcases hoperator with h | h <;> rw [h] <;> rfl
  | noUnary _ ih => exact ih.mono fun _ => startsExpression_of_starts
  | callNothing _ _ _ ih => exact ih.append _
  | callWith _ _ _ _ _ ih _ => exact (ih.append _).append _
  | get _ _ _ ih => exact ih.append _
  | noCall _ ih => exact ih
  | falseWord h | trueWord h | nilWord h | this h | name h => exact ⟨_, _, rfl, by rw [h]; rfl⟩
  | literal h =>
      refine ⟨_, _, rfl, ?_⟩
      rcases h with h | h <;> rw [h] <;> rfl
  | group hleft _ _ _ => exact ⟨_, _, rfl, by rw [hleft]; rfl⟩
  | super hkeyword _ _ => exact ⟨_, _, rfl, by rw [hkeyword]; rfl⟩
  | argument _ ih => exact ih
  | arguments _ _ _ ih _ => exact ih.append _

theorem Level.Derives.begins {l : Level} {u : List Token} {e : Expr Unit} (h : l.Derives u e) :
    BeginsWith startsExpression u :=
  (Phrase.Derives.begins h).mono fun _ => Phrase.startsExpression_of_starts

end Lox.Grammar
