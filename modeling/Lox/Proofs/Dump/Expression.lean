import Lox.Proofs.Dump.Lexeme
import Lox.Proofs.Dump.Tree
import Lox.Proofs.Lines.Grammar

/-!
# Expressions are read back

An expression can be read off its form, all but the lines of its tokens. A head that is an operator
names itself, other heads are spelled like no operator, and a name is a word of its own.
-/

namespace Lox

/-! ### The reader -/

namespace Form

/-- Nodes whose head is no operator: a call, a group, and what is done to a property. -/
def readNamed (head : Bytes) : List (Expr Unit) → Expr Unit
  | [] => .literal .nil
  | e :: es =>
      if head = bytes "call" then .call e (.ofLexeme (bytes ")")) es
      else if head = bytes "group" then .group e
      else
        match es with
        | [] => .get e (.ofLexeme head.tail)
        | value :: _ => .set e (.ofLexeme head.tail) value

def readNode (kind : Token.Kind) (head : Bytes) (es : List (Expr Unit)) : Expr Unit :=
  match kind, es with
  | .identifier, es => readNamed head es
  | .superWord, .read method _ :: _ => .super (.ofLexeme superName) () method
  | .equal, .read name _ :: value :: _ => .assign name () value
  | .andWord, left :: right :: _ => .logical left (.ofLexeme head) right
  | .orWord, left :: right :: _ => .logical left (.ofLexeme head) right
  | _, [e] => .unary (.ofLexeme head) e
  | _, left :: right :: _ => .binary left (.ofLexeme head) right
  | _, [] => .literal .nil

mutual

def expr : Form → Expr Unit
  | .word text =>
      if text = thisName then .this (.ofLexeme text) () else .read (.ofLexeme text) ()
  | .literal value => .literal value
  | .node head parts => readNode (Token.kindOf head) head (exprs parts)

def exprs : List Form → List (Expr Unit)
  | [] => []
  | part :: parts => part.expr :: exprs parts

end

end Form

/-- The expression is read back from its form. -/
structure Expr.ReadsBack (e : Expr Unit) : Prop where
  legible : e.form.Legible
  back : e.form.expr = e.renumber fun _ => 0

/-! ### Nodes -/

section Expressions

open Form Token

variable {e left right object callee value : Expr Unit} {name operator keyword paren : Token}

theorem expr_name (hname : name.Name) :
    (Form.word name.lexeme).expr = .read name.onLineZero () := by
  have hthis : name.lexeme ≠ thisName := by
    obtain ⟨c, s, hlexeme, -, -, hword⟩ := hname.spelled
    intro heq
    exact hword .thisWord (hlexeme ▸ heq ▸ by decide)
  rw [expr, if_neg hthis, hname.ofLexeme]

theorem readsBack_read (hname : name.Name) : (Expr.read name ()).ReadsBack :=
  ⟨hname.isWord, expr_name hname⟩

theorem readsBack_this (hkeyword : keyword.Genuine) (hkind : keyword.kind = .thisWord) :
    (Expr.this keyword ()).ReadsBack := by
  have htoken : Token.ofLexeme thisName = keyword.onLineZero :=
    onLineZero_of_fixed hkeyword (by rw [hkind]; decide)
  constructor
  · exact ⟨by decide, ⟨116, bytes "his", rfl, rfl⟩, by decide⟩
  · rw [Expr.form, expr, if_pos rfl, htoken]
    rfl

theorem readsBack_literal {v : Literal} (h : IsLegible v) :
    (Expr.literal v : Expr Unit).ReadsBack :=
  ⟨h, rfl⟩

theorem expr_node {head : Bytes} {kind : Token.Kind} (h : kindOf head = kind)
    (parts : List Form) : (Form.node head parts).expr = readNode kind head (exprs parts) := by
  rw [expr, h]

theorem readsBack_assign (hname : name.Name) (hvalue : value.ReadsBack) :
    (Expr.assign name () value).ReadsBack := by
  have hkind : kindOf (bytes "=") = .equal := kindOf_of_mem_fixed (by decide)
  constructor
  · exact ⟨by decide, hname.isWord, hvalue.legible, trivial⟩
  · rw [Expr.form, expr_node hkind]
    simp only [exprs, expr_name hname, hvalue.back]
    rfl

theorem readsBack_super (hkeyword : keyword.Genuine) (hkind : keyword.kind = .superWord)
    (hname : name.Name) : (Expr.super keyword () name).ReadsBack := by
  have htoken : Token.ofLexeme superName = keyword.onLineZero :=
    onLineZero_of_fixed hkeyword (by rw [hkind]; decide)
  have hhead : kindOf (bytes "super") = .superWord := kindOf_of_mem_fixed (by decide)
  constructor
  · exact ⟨by decide, hname.isWord, trivial⟩
  · rw [Expr.form, expr_node hhead]
    simp only [exprs, expr_name hname, readNode, htoken]
    rfl

theorem readsBack_group (h : e.ReadsBack) : (Expr.group e).ReadsBack := by
  have hhead : kindOf (bytes "group") = .identifier := kindOf_head (by decide)
  constructor
  · exact ⟨by decide, h.legible, trivial⟩
  · rw [Expr.form, expr_node hhead]
    simp only [exprs, h.back]
    rfl

theorem ne_of_prefixed {b : UInt8} {s : Bytes} (hb : b ∈ [46, 61]) :
    b :: s ≠ bytes "call" ∧ b :: s ≠ bytes "group" := by
  simp only [List.mem_cons, List.not_mem_nil, or_false] at hb
  constructor <;>
  · intro heq
    have hhead := (List.cons.inj heq).1
    rcases hb with rfl | rfl <;> exact absurd hhead (by decide)

theorem readsBack_get (hobject : object.ReadsBack) (hname : name.Name) :
    (Expr.get object name).ReadsBack := by
  have hkind : kindOf (46 :: name.lexeme) = .identifier := hname.kindOf_prefixed (by decide)
  obtain ⟨hcall, hgroup⟩ := ne_of_prefixed (s := name.lexeme) (by decide : (46 : UInt8) ∈ [46, 61])
  constructor
  · exact ⟨hname.plain, hobject.legible, trivial⟩
  · rw [Expr.form, expr_node hkind]
    simp only [exprs, hobject.back, readNode, readNamed, if_neg hcall, if_neg hgroup,
      List.tail_cons, hname.ofLexeme]
    rfl

theorem readsBack_set (hobject : object.ReadsBack) (hname : name.Name) (hvalue : value.ReadsBack) :
    (Expr.set object name value).ReadsBack := by
  have hkind : kindOf (61 :: name.lexeme) = .identifier := hname.kindOf_prefixed (by decide)
  obtain ⟨hcall, hgroup⟩ := ne_of_prefixed (s := name.lexeme) (by decide : (61 : UInt8) ∈ [46, 61])
  constructor
  · exact ⟨hname.plain, hobject.legible, hvalue.legible, trivial⟩
  · rw [Expr.form, expr_node hkind]
    simp only [exprs, hobject.back, hvalue.back, readNode, readNamed, if_neg hcall, if_neg hgroup,
      List.tail_cons, hname.ofLexeme]
    rfl

theorem readNode_unary {kind : Token.Kind} (h : kind = .bang ∨ kind = .minus) (head : Bytes)
    (e : Expr Unit) : readNode kind head [e] = .unary (.ofLexeme head) e := by
  rcases h with rfl | rfl <;> rfl

theorem readsBack_unary (hoperator : operator.Genuine)
    (hkind : operator.kind = .bang ∨ operator.kind = .minus) (h : e.ReadsBack) :
    (Expr.unary operator e).ReadsBack := by
  have hoperates : operator.Operator := by
    refine ⟨hoperator, ?_⟩
    rcases hkind with hkind | hkind <;> rw [hkind] <;> decide
  have hhead : kindOf operator.lexeme = operator.kind :=
    congrArg Token.kind hoperates.ofLexeme
  constructor
  · exact ⟨hoperates.plain, h.legible, trivial⟩
  · rw [Expr.form, expr_node hhead]
    simp only [exprs, h.back]
    rw [readNode_unary hkind, hoperates.ofLexeme]
    rfl

/-! ### Operators and calls -/

/-- All expressions of a list are read back. -/
def AllReadBack (es : List (Expr Unit)) : Prop :=
  ∀ e ∈ es, e.ReadsBack

theorem legible_forms {es : List (Expr Unit)} (h : AllReadBack es) :
    LegibleAll (Expr.forms es) := by
  induction es with
  | nil => trivial
  | cons e es ih =>
      obtain ⟨he, hes⟩ := List.forall_mem_cons.mp h
      exact ⟨he.legible, ih hes⟩

theorem exprs_forms {es : List (Expr Unit)} (h : AllReadBack es) :
    exprs (Expr.forms es) = Expr.renumberAll (fun _ => 0) es := by
  induction es with
  | nil => rfl
  | cons e es ih =>
      obtain ⟨he, hes⟩ := List.forall_mem_cons.mp h
      rw [Expr.forms, exprs, he.back, ih hes]
      rfl

theorem readsBack_call (hcallee : callee.ReadsBack) (hparen : paren.Genuine)
    (hkind : paren.kind = .rightParen) {es : List (Expr Unit)} (hes : AllReadBack es) :
    (Expr.call callee paren es).ReadsBack := by
  have htoken : Token.ofLexeme (bytes ")") = paren.onLineZero :=
    onLineZero_of_fixed hparen (by rw [hkind]; decide)
  have hhead : kindOf (bytes "call") = .identifier := kindOf_head (by decide)
  constructor
  · exact ⟨by decide, hcallee.legible, legible_forms hes⟩
  · rw [Expr.form, expr_node hhead]
    simp only [exprs, hcallee.back, exprs_forms hes, readNode, readNamed, if_true, htoken]
    rfl

theorem form_chain (c : Grammar.Chain) (left : Expr Unit) (operator : Token) (right : Expr Unit) :
    (c.node left operator right).form = .node operator.lexeme [left.form, right.form] := by
  cases c <;> rfl

theorem readNode_chain {c : Grammar.Chain} {kind : Token.Kind} (h : kind ∈ c.operators)
    (head : Bytes) (left right : Expr Unit) :
    readNode kind head [left, right] = c.node left (.ofLexeme head) right := by
  cases c <;>
    simp only [Grammar.Chain.operators, List.mem_cons, List.not_mem_nil, or_false] at h
  case disjunction | conjunction =>
    subst h
    rfl
  case equality | term | factor => rcases h with rfl | rfl <;> rfl
  case comparison => rcases h with rfl | rfl | rfl | rfl <;> rfl

theorem readsBack_chain {c : Grammar.Chain} (hleft : left.ReadsBack) (hoperator : operator.Genuine)
    (hkind : operator.kind ∈ c.operators) (hright : right.ReadsBack) :
    (c.node left operator right).ReadsBack := by
  have hoperates : operator.Operator := by
    have hall : ∀ kind ∈ c.operators, kind ∈ [Kind.bang, .bangEqual, .equalEqual, .greater,
        .greaterEqual, .less, .lessEqual, .minus, .plus, .slash, .star, .andWord, .orWord] := by
      cases c <;> decide
    exact ⟨hoperator, hall _ hkind⟩
  have hhead : kindOf operator.lexeme = operator.kind :=
    congrArg Token.kind hoperates.ofLexeme
  constructor
  · rw [form_chain]
    exact ⟨hoperates.plain, hleft.legible, hright.legible, trivial⟩
  · rw [form_chain, expr_node hhead]
    simp only [exprs, hleft.back, hright.back]
    rw [readNode_chain hkind, hoperates.ofLexeme]
    exact (Grammar.Chain.node_renumber _ c left operator right).symm

end Expressions

/-! ### Expressions that are parsed -/

namespace Grammar

open Form

theorem legible_of_genuine {t : Token} (h : t.Genuine) : IsLegible t.literal := by
  obtain ⟨kind, lexeme, literal, line⟩ := t
  change Scan.Matches lexeme (.token kind literal) at h
  intro x hx
  change literal = .num x at hx
  subst hx
  cases h with
  | integer _ _ => exact Number.isNaN_ofDecimal _ _
  | decimal _ _ _ => exact Number.isNaN_ofDecimal _ _

def Phrase.ReadsBack : (x : Phrase) → x.Tree → Prop
  | .level _ => Expr.ReadsBack
  | .arguments => AllReadBack

/-- What is derived from tokens of a source is read back from its form. -/
theorem Phrase.Derives.readsBack {x : Phrase} {u : List Token} {e : x.Tree} (h : x.Derives u e)
    (hu : ∀ t ∈ u, t.Genuine) : x.ReadsBack e := by
  induction h with
  | assignName hname _ _ ih =>
      simp only [List.forall_mem_cons] at hu
      exact readsBack_assign ⟨hu.1, hname⟩ (ih hu.2.2)
  | assignField _ _ hname _ _ ihobject ihvalue =>
      simp only [List.forall_mem_append, List.forall_mem_cons] at hu
      exact readsBack_set (ihobject hu.1) ⟨hu.2.2.1, hname⟩ (ihvalue hu.2.2.2.2)
  | noAssignment _ ih => exact ih hu
  | operator _ hoperator _ ihleft ihright =>
      simp only [List.forall_mem_append, List.forall_mem_cons] at hu
      exact readsBack_chain (ihleft hu.1) hu.2.1 hoperator (ihright hu.2.2)
  | operand _ ih => exact ih hu
  | unary hoperator _ ih =>
      rw [List.forall_mem_cons] at hu
      exact readsBack_unary hu.1 hoperator (ih hu.2)
  | noUnary _ ih => exact ih hu
  | callNothing _ _ hright ih =>
      simp only [List.forall_mem_append, List.forall_mem_cons] at hu
      exact readsBack_call (ih hu.1) hu.2.2.1 hright (List.forall_mem_nil _)
  | callWith _ _ _ _ hright ihcallee iharguments =>
      simp only [List.forall_mem_append, List.forall_mem_cons] at hu
      exact readsBack_call (ihcallee hu.1.1) hu.2.1 hright (iharguments hu.1.2.2)
  | get _ _ hname ih =>
      simp only [List.forall_mem_append, List.forall_mem_cons] at hu
      exact readsBack_get (ih hu.1) ⟨hu.2.2.1, hname⟩
  | noCall _ ih => exact ih hu
  | falseWord _ | trueWord _ | nilWord _ => exact readsBack_literal fun _ h => nomatch h
  | this h => exact readsBack_this (List.forall_mem_singleton.mp hu) h
  | literal _ => exact readsBack_literal (legible_of_genuine (List.forall_mem_singleton.mp hu))
  | name h => exact readsBack_read ⟨List.forall_mem_singleton.mp hu, h⟩
  | group _ _ _ ih =>
      simp only [List.cons_append, List.forall_mem_append, List.forall_mem_cons] at hu
      exact readsBack_group (ih hu.2.1)
  | super hkeyword _ hmethod =>
      simp only [List.forall_mem_cons] at hu
      exact readsBack_super hu.1 hkeyword ⟨hu.2.2.1, hmethod⟩
  | argument _ ih => exact List.forall_mem_singleton.mpr (ih hu)
  | arguments _ _ _ ih ihothers =>
      simp only [List.forall_mem_append, List.forall_mem_cons] at hu
      exact List.forall_mem_cons.mpr ⟨ih hu.1, ihothers hu.2.2⟩

theorem Expression.readsBack {u : List Token} {e : Expr Unit} (h : Expression u e)
    (hu : ∀ t ∈ u, t.Genuine) : e.ReadsBack :=
  Phrase.Derives.readsBack h hu

end Grammar

end Lox
