import Lox.Proofs.Dump.Form
import Lox.Tree.Dump

/-!
# Trees as forms

A dumped tree is the text of a form. Names stand in it as words, and the head of a node says which
node it is.
-/

namespace Lox

open Dump

variable {ρ : Type}

mutual

def Expr.form : Expr ρ → Form
  | .assign name _ value => .node (bytes "=") [.word name.lexeme, value.form]
  | .binary left operator right => .node operator.lexeme [left.form, right.form]
  | .call callee _ arguments => .node (bytes "call") (callee.form :: Expr.forms arguments)
  | .get object name => .node (46 :: name.lexeme) [object.form]
  | .group inner => .node (bytes "group") [inner.form]
  | .literal value => .literal value
  | .logical left operator right => .node operator.lexeme [left.form, right.form]
  | .set object name value => .node (61 :: name.lexeme) [object.form, value.form]
  | .super _ _ method => .node (bytes "super") [.word method.lexeme]
  | .this _ _ => .word thisName
  | .unary operator operand => .node operator.lexeme [operand.form]
  | .read name _ => .word name.lexeme

def Expr.forms : List (Expr ρ) → List Form
  | [] => []
  | e :: es => e.form :: Expr.forms es

end

/-- The parameters of a function; the first one stands where other nodes have their head. -/
def paramsForm : List Token → Form
  | [] => .node [] []
  | name :: names => .node name.lexeme (names.map fun name => .word name.lexeme)

def superclassForms : Option (Token × ρ) → List Form
  | none => []
  | some (name, _) => [.word (bytes "<"), .word name.lexeme]

def optionalForms (value : Option (Expr ρ)) : List Form :=
  (value.map Expr.form).toList

mutual

def Stmt.form : Stmt ρ → Form
  | .block body => .node (bytes "block") (Stmt.forms body)
  | .class name base methods =>
      .node (bytes "class")
        (.word name.lexeme :: superclassForms base ++ FunctionDecl.forms methods)
  | .expr e => .node (bytes ";") [e.form]
  | .function decl => decl.form
  | .ifThen condition thenBranch => .node (bytes "if") [condition.form, thenBranch.form]
  | .ifElse condition thenBranch elseBranch =>
      .node (bytes "if-else") [condition.form, thenBranch.form, elseBranch.form]
  | .print e => .node (bytes "print") [e.form]
  | .return _ value => .node (bytes "return") (optionalForms value)
  | .var name init => .node (bytes "var") (.word name.lexeme :: optionalForms init)
  | .while condition body => .node (bytes "while") [condition.form, body.form]

def Stmt.forms : List (Stmt ρ) → List Form
  | [] => []
  | s :: ss => s.form :: Stmt.forms ss

def FunctionDecl.form : FunctionDecl ρ → Form
  | ⟨name, names, body⟩ =>
      .node (bytes "fun") (.word name.lexeme :: paramsForm names :: Stmt.forms body)

def FunctionDecl.forms : List (FunctionDecl ρ) → List Form
  | [] => []
  | d :: ds => d.form :: FunctionDecl.forms ds

end

/-! ### Dumped trees are texts of forms -/

namespace Form

theorem renderAll_eq (parts : List Form) :
    renderAll parts = (parts.map render).flatMap (Bytes.space :: ·) ++ [41] := by
  induction parts with
  | nil => rfl
  | cons part parts ih => rw [renderAll, ih, List.map_cons, List.flatMap_cons, List.append_assoc]

theorem render_node (head : Bytes) (parts : List Form) :
    (node head parts).render = Dump.node head (parts.map render) := by
  rw [render, renderAll_eq, Dump.node, List.append_assoc]

/-- A word that a dumped node has in its head. -/
theorem node_word (head text : Bytes) (parts : List Bytes) :
    Dump.node (head ++ Bytes.space :: text) parts = Dump.node head (text :: parts) := by
  simp [Dump.node]

end Form

open Form

theorem joined_eq (text : Bytes) (texts : List Bytes) :
    Bytes.joined [Bytes.space] (text :: texts) = text ++ texts.flatMap (Bytes.space :: ·) := by
  induction texts generalizing text with
  | nil => simp [Bytes.joined]
  | cons other texts ih => simp [Bytes.joined, ih]

theorem params_eq_render (names : List Token) : params names = (paramsForm names).render := by
  cases names with
  | nil => rfl
  | cons name names =>
      have hrender : (render ∘ fun name : Token => word name.lexeme) = Token.lexeme := rfl
      rw [paramsForm, render_node, List.map_map, hrender, params, List.map_cons, joined_eq,
        Dump.node]
      rfl

mutual

theorem Expr.dump_eq_render (e : Expr ρ) : e.dump = e.form.render := by
  match e with
  | .assign name _ value =>
      rw [Expr.dump, Expr.form, render_node, value.dump_eq_render]
      exact node_word (bytes "=") name.lexeme _
  | .binary left operator right | .logical left operator right =>
      rw [Expr.dump, Expr.form, render_node, left.dump_eq_render, right.dump_eq_render]
      rfl
  | .call callee _ arguments =>
      rw [Expr.dump, Expr.form, render_node, callee.dump_eq_render,
        Expr.dumps_eq_render arguments]
      rfl
  | .get object name =>
      rw [Expr.dump, Expr.form, render_node, object.dump_eq_render]
      rfl
  | .group inner =>
      rw [Expr.dump, Expr.form, render_node, inner.dump_eq_render]
      rfl
  | .literal value => rfl
  | .set object name value =>
      rw [Expr.dump, Expr.form, render_node, object.dump_eq_render, value.dump_eq_render]
      rfl
  | .super _ _ method =>
      rw [Expr.dump, Expr.form, render_node]
      exact node_word (bytes "super") method.lexeme []
  | .this _ _ => rfl
  | .unary operator operand =>
      rw [Expr.dump, Expr.form, render_node, operand.dump_eq_render]
      rfl
  | .read name _ => rfl

theorem Expr.dumps_eq_render (es : List (Expr ρ)) :
    Expr.dumps es = (Expr.forms es).map render := by
  match es with
  | [] => rfl
  | e :: es => rw [Expr.dumps, Expr.forms, List.map_cons, e.dump_eq_render, Expr.dumps_eq_render es]

end

theorem optional_eq_render (value : Option (Expr ρ)) :
    Dump.optional value = (optionalForms value).map render := by
  cases value with
  | none => rfl
  | some e =>
      rw [Dump.optional, e.dump_eq_render]
      rfl

theorem superclass_eq_render (name : Bytes) (base : Option (Token × ρ)) (methods : List Form) :
    Dump.node (bytes "class " ++ name ++ superclass base) (methods.map render) =
      Dump.node (bytes "class") ((.word name :: superclassForms base ++ methods).map render) := by
  cases base with
  | none =>
      rw [superclass, List.append_nil]
      exact node_word (bytes "class") name _
  | some base =>
      have hhead : bytes "class " ++ name ++ superclass (some base) =
          (bytes "class" ++ Bytes.space :: name ++ Bytes.space :: bytes "<") ++
            Bytes.space :: base.1.lexeme := by
        simp only [superclass, List.append_assoc]
        rfl
      rw [hhead, node_word, node_word, node_word]
      rfl

mutual

theorem Stmt.dump_eq_render (s : Stmt ρ) : s.dump = s.form.render := by
  match s with
  | .block body =>
      rw [Stmt.dump, Stmt.form, render_node, Stmt.dumps_eq_render body]
  | .class name base methods =>
      rw [Stmt.dump, Stmt.form, render_node, FunctionDecl.dumps_eq_render methods,
        superclass_eq_render]
  | .expr e =>
      rw [Stmt.dump, Stmt.form, render_node, e.dump_eq_render]
      rfl
  | .function decl => exact decl.dump_eq_render
  | .ifThen condition thenBranch =>
      rw [Stmt.dump, Stmt.form, render_node, condition.dump_eq_render, thenBranch.dump_eq_render]
      rfl
  | .ifElse condition thenBranch elseBranch =>
      rw [Stmt.dump, Stmt.form, render_node, condition.dump_eq_render, thenBranch.dump_eq_render,
        elseBranch.dump_eq_render]
      rfl
  | .print e =>
      rw [Stmt.dump, Stmt.form, render_node, e.dump_eq_render]
      rfl
  | .return _ value => rw [Stmt.dump, Stmt.form, render_node, optional_eq_render]
  | .var name init =>
      rw [Stmt.dump, Stmt.form, render_node, optional_eq_render]
      exact node_word (bytes "var") name.lexeme _
  | .while condition body =>
      rw [Stmt.dump, Stmt.form, render_node, condition.dump_eq_render, body.dump_eq_render]
      rfl

theorem Stmt.dumps_eq_render (ss : List (Stmt ρ)) :
    Stmt.dumps ss = (Stmt.forms ss).map render := by
  match ss with
  | [] => rfl
  | s :: ss => rw [Stmt.dumps, Stmt.forms, List.map_cons, s.dump_eq_render, Stmt.dumps_eq_render ss]

theorem FunctionDecl.dump_eq_render (d : FunctionDecl ρ) : d.dump = d.form.render := by
  match d with
  | ⟨name, names, body⟩ =>
      rw [FunctionDecl.dump, FunctionDecl.form, render_node, params_eq_render,
        Stmt.dumps_eq_render body]
      exact node_word (bytes "fun") name.lexeme _

theorem FunctionDecl.dumps_eq_render (ds : List (FunctionDecl ρ)) :
    FunctionDecl.dumps ds = (FunctionDecl.forms ds).map render := by
  match ds with
  | [] => rfl
  | d :: ds =>
      rw [FunctionDecl.dumps, FunctionDecl.forms, List.map_cons, d.dump_eq_render,
        FunctionDecl.dumps_eq_render ds]

end

end Lox
