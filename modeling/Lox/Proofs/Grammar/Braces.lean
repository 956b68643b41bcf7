import Lox.Proofs.Grammar.Statement
import Lox.Token.Scan

/-!
# Braces in programs

Every rule of the grammar closes the braces that it opens, and none closes a brace that another one
has opened. So no beginning of a program has more closing braces than opening ones, and the whole
program has as many.
-/

namespace Lox.Grammar

/-- Opening braces without a partner, less the closing ones without. -/
def depth (ts : List Token) : Int :=
  (ts.countP (·.kind = .leftBrace) : Int) - ts.countP (·.kind = .rightBrace)

/-- Each closing brace has an opening one in front of it, and none is left open. -/
structure Balanced (u : List Token) : Prop where
  beginnings : ∀ p, p <+: u → 0 ≤ depth p
  whole : depth u = 0

def isBrace (kind : Token.Kind) : Bool :=
  kind == .leftBrace || kind == .rightBrace

/-- Without braces. -/
def Flat (u : List Token) : Prop :=
  ∀ t ∈ u, isBrace t.kind = false

/-! ### Depth -/

theorem depth_append (u w : List Token) : depth (u ++ w) = depth u + depth w := by
  simp only [depth, List.countP_append]
  omega

theorem depth_cons (t : Token) (u : List Token) : depth (t :: u) = depth [t] + depth u :=
  depth_append [t] u

theorem depth_leftBrace {t : Token} (h : t.kind = .leftBrace) : depth [t] = 1 := by
  simp [depth, h]

theorem depth_rightBrace {t : Token} (h : t.kind = .rightBrace) : depth [t] = -1 := by
  simp [depth, h]

theorem Flat.depth {u : List Token} (h : Flat u) : depth u = 0 := by
  have hnone : ∀ t ∈ u, t.kind ≠ .leftBrace ∧ t.kind ≠ .rightBrace := by
    intro t ht
    simpa [isBrace] using h t ht
  have hleft : u.countP (·.kind = .leftBrace) = 0 :=
    List.countP_eq_zero.mpr fun t ht => by simpa using (hnone t ht).1
  have hright : u.countP (·.kind = .rightBrace) = 0 :=
    List.countP_eq_zero.mpr fun t ht => by simpa using (hnone t ht).2
  simp [Grammar.depth, hleft, hright]

/-! ### Balanced lists -/

theorem Flat.balanced {u : List Token} (h : Flat u) : Balanced u := by
  refine ⟨fun p hp => ?_, h.depth⟩
  have hflat : Flat p := fun t ht => h t (hp.subset ht)
  exact Int.le_of_eq hflat.depth.symm

theorem balanced_nil : Balanced [] :=
  Flat.balanced fun _ h => nomatch h

theorem prefix_append_cases {p u w : List Token} (h : p <+: u ++ w) :
    p <+: u ∨ ∃ q, q <+: w ∧ p = u ++ q := by
  rcases List.prefix_or_prefix_of_prefix h (List.prefix_append u w) with hp | ⟨q, rfl⟩
  · exact .inl hp
  · exact .inr ⟨q, (List.prefix_append_right_inj u).mp h, rfl⟩

theorem Balanced.append {u w : List Token} (hu : Balanced u) (hw : Balanced w) :
    Balanced (u ++ w) := by
  constructor
  · intro p hp
    rcases prefix_append_cases hp with hp | ⟨q, hq, rfl⟩
    · exact hu.beginnings p hp
    · rw [depth_append, hu.whole, Int.zero_add]
      exact hw.beginnings q hq
  · rw [depth_append, hu.whole, hw.whole]
    rfl

/-- What is balanced stays so between two braces. -/
theorem Balanced.enclosed {left right : Token} {u : List Token} (h : Balanced u)
    (hleft : left.kind = .leftBrace) (hright : right.kind = .rightBrace) :
    Balanced (left :: u ++ [right]) := by
  have hall : depth (left :: u ++ [right]) = 0 := by
    rw [depth_append, depth_cons, depth_leftBrace hleft, depth_rightBrace hright, h.whole]
    rfl
  refine ⟨fun p hp => ?_, hall⟩
  rcases List.prefix_cons_iff.mp hp with rfl | ⟨q, rfl, hq⟩
  · exact Int.le_refl 0
  rcases prefix_append_cases hq with hq | ⟨last, hlast, rfl⟩
  · have hnonneg := h.beginnings q hq
    rw [depth_cons, depth_leftBrace hleft]
    omega
  · rcases List.prefix_cons_iff.mp hlast with rfl | ⟨none, rfl, hnone⟩
    · rw [List.append_nil, depth_cons, depth_leftBrace hleft, h.whole]
      decide
    · rw [List.prefix_nil.mp hnone]
      exact Int.le_of_eq hall.symm

/-! ### Flat lists -/

theorem flat_nil : Flat [] :=
  fun _ h => nomatch h

theorem Flat.append {u w : List Token} (hu : Flat u) (hw : Flat w) : Flat (u ++ w) :=
  List.forall_mem_append.mpr ⟨hu, hw⟩

theorem Flat.cons {t : Token} {u : List Token} {kind : Token.Kind} (ht : t.kind = kind)
    (hkind : isBrace kind = false) (hu : Flat u) : Flat (t :: u) := by
  refine List.forall_mem_cons.mpr ⟨?_, hu⟩
  rw [ht]
  exact hkind

theorem Flat.one {t : Token} {kind : Token.Kind} (ht : t.kind = kind)
    (hkind : isBrace kind = false) : Flat [t] :=
  flat_nil.cons ht hkind

theorem Balanced.cons {t : Token} {u : List Token} {kind : Token.Kind} (ht : t.kind = kind)
    (hkind : isBrace kind = false) (hu : Balanced u) : Balanced (t :: u) :=
  (Flat.one ht hkind).balanced.append hu

theorem Chain.isBrace_operator (c : Chain) : ∀ kind ∈ c.operators, isBrace kind = false := by
  cases c <;> decide

theorem Phrase.Derives.flat {x : Phrase} {u : List Token} {e : x.Tree} (h : x.Derives u e) :
    Flat u := by
  induction h with
  | assignName hname hequal _ ih => exact (ih.cons hequal rfl).cons hname rfl
  | assignField _ hdot hname hequal _ ihobject ihvalue =>
      exact ihobject.append (((ihvalue.cons hequal rfl).cons hname rfl).cons hdot rfl)
  | noAssignment _ ih => exact ih
  | @operator c _ _ _ _ _ _ hoperator _ ihleft ihright =>
      exact ihleft.append (ihright.cons rfl (c.isBrace_operator _ hoperator))
  | operand _ ih => exact ih
  | unary hoperator _ ih =>
      rcases hoperator with h | h
      · exact ih.cons h rfl
      · exact ih.cons h rfl
  | noUnary _ ih => exact ih
  | callNothing _ hleft hright ih => exact ih.append ((Flat.one hright rfl).cons hleft rfl)
  | callWith _ hleft _ _ hright ihcallee iharguments =>
      exact (ihcallee.append (iharguments.cons hleft rfl)).append (Flat.one hright rfl)
  | get _ hdot hname ih => exact ih.append ((Flat.one hname rfl).cons hdot rfl)
  | noCall _ ih => exact ih
  | falseWord h | trueWord h | nilWord h | this h | name h => exact Flat.one h rfl
  | literal h =>
      rcases h with h | h
      · exact Flat.one h rfl
      · exact Flat.one h rfl
  | group hleft _ hright ih => exact (ih.cons hleft rfl).append (Flat.one hright rfl)
  | super hkeyword hdot hmethod =>
      exact ((Flat.one hmethod rfl).cons hdot rfl).cons hkeyword rfl
  | argument _ ih => exact ih
  | arguments _ hcomma _ ih ihothers => exact ih.append (ihothers.cons hcomma rfl)

theorem Expression.flat {u : List Token} {e : Expr Unit} (h : Expression u e) : Flat u :=
  Phrase.Derives.flat h

theorem Optionally.flat {u : List Token} {value : Option (Expr Unit)}
    (h : Optionally Expression u value) : Flat u := by
  cases h with
  | absent => exact flat_nil
  | present h => exact Expression.flat h

theorem ExpressionStatement.flat {u : List Token} {s : Stmt Unit} (h : ExpressionStatement u s) :
    Flat u := by
  obtain ⟨h, hend⟩ := h
  exact (Expression.flat h).append (Flat.one hend rfl)

theorem VariableDeclaration.flat {u : List Token} {s : Stmt Unit} (h : VariableDeclaration u s) :
    Flat u := by
  cases h with
  | plain hkeyword hname hend => exact ((Flat.one hend rfl).cons hname rfl).cons hkeyword rfl
  | initialized hkeyword hname hequal h hend =>
      have hvalue := ((Expression.flat h).cons hequal rfl).cons hname rfl
      exact (hvalue.cons hkeyword rfl).append (Flat.one hend rfl)

theorem Initializer.flat {u : List Token} {init : Option (Stmt Unit)} (h : Initializer u init) :
    Flat u := by
  cases h with
  | absent hend => exact Flat.one hend rfl
  | variableDecl h => exact h.flat
  | expressionStmt h => exact h.flat

theorem Superclass.flat {u : List Token} {base : Option (Token × Unit)} (h : Superclass u base) :
    Flat u := by
  cases h with
  | absent => exact flat_nil
  | present hless hname => exact (Flat.one hname rfl).cons hless rfl

theorem Parameters.flat {u names : List Token} (h : Parameters u names) : Flat u := by
  cases h with
  | absent => exact flat_nil
  | present h hlimit =>
      clear hlimit
      induction h with
      | one h =>
          obtain ⟨rfl, hname⟩ := h
          exact Flat.one hname rfl
      | more h hcomma _ ih =>
          obtain ⟨rfl, hname⟩ := h
          exact (ih.cons hcomma rfl).cons hname rfl

/-! ### Programs -/

/-- A clause closes the braces that it opens, and no others. -/
theorem Clause.Derives.balanced {nearest : Bool} {x : Clause} {u : List Token} {t : x.Tree}
    (h : x.Derives nearest u t) : Balanced u := by
  induction h with
  | exprStmt h => exact h.flat.balanced
  | printStmt hkeyword h hend =>
      exact (((Expression.flat h).cons hkeyword rfl).append (Flat.one hend rfl)).balanced
  | returnStmt hkeyword h hend =>
      exact ((h.flat.cons hkeyword rfl).append (Flat.one hend rfl)).balanced
  | blockStmt hleft _ hright ih => exact ih.enclosed hleft hright
  | whileStmt hkeyword hleft hcondition hright _ ih
  | ifThen hkeyword hleft hcondition hright _ ih =>
      have hhead := ((Expression.flat hcondition).cons hleft rfl).cons hkeyword rfl
      exact hhead.balanced.append (ih.cons hright rfl)
  | forStmt hkeyword hleft hinit hcondition hend hincrement hright _ ih =>
      have hhead := ((hinit.flat.cons hleft rfl).cons hkeyword rfl).append hcondition.flat
      exact (hhead.append (hincrement.flat.cons hend rfl)).balanced.append (ih.cons hright rfl)
  | ifElse hkeyword hleft hcondition hright _ _ hother _ ihyes ihno =>
      have hhead := ((Expression.flat hcondition).cons hleft rfl).cons hkeyword rfl
      exact (hhead.balanced.append (ihyes.cons hright rfl)).append (ihno.cons hother rfl)
  | statementDecl _ ih => exact ih
  | variableDecl h => exact h.flat.balanced
  | functionDecl hkeyword _ ih => exact ih.cons hkeyword rfl
  | classDecl hkeyword hname hsuperclass hleft _ hright ih =>
      have hhead := (hsuperclass.flat.cons hname rfl).cons hkeyword rfl
      rw [List.append_assoc]
      exact hhead.balanced.append (ih.enclosed hleft hright)
  | noDeclarations => exact balanced_nil
  | declarations _ _ ih ihothers => exact ih.append ihothers
  | function hname hleft hparams hright hopening _ hclosing ih =>
      have hhead := (hparams.flat.cons hleft rfl).cons hname rfl
      rw [List.append_assoc]
      exact hhead.balanced.append ((ih.enclosed hopening hclosing).cons hright rfl)
  | noMethods => exact balanced_nil
  | methods _ _ ih ihothers => exact ih.append ihothers

end Lox.Grammar
