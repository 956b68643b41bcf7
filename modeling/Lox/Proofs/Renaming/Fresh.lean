import Mathlib.Data.List.Nodup
import Lox.Proofs.Renaming.Static
import Lox.Proofs.Resolution.Exact

/-!
# A new name that occurs nowhere

The new name is fresh: no token of the program is spelled like it. Then to rename a variable in its
scope respells the tree, and the names of functions and classes are not in the way: a checked scope
declares each name once.
-/

namespace Lox

open Resolution Grammar

/-! ### Tokens that declare a name -/

mutual

def Stmt.binders {ρ : Type} : Stmt ρ → List Token
  | .block body => Stmt.bindersAll body
  | .class name _ methods => name :: FunctionDecl.bindersAll methods
  | .expr _ => []
  | .function decl => decl.name :: decl.binders
  | .ifThen _ thenBranch => thenBranch.binders
  | .ifElse _ thenBranch elseBranch => thenBranch.binders ++ elseBranch.binders
  | .print _ => []
  | .return _ _ => []
  | .var name _ => [name]
  | .while _ body => body.binders

def Stmt.bindersAll {ρ : Type} : List (Stmt ρ) → List Token
  | [] => []
  | s :: ss => s.binders ++ Stmt.bindersAll ss

def FunctionDecl.binders {ρ : Type} : FunctionDecl ρ → List Token
  | ⟨_, params, body⟩ => params ++ Stmt.bindersAll body

def FunctionDecl.bindersAll {ρ : Type} : List (FunctionDecl ρ) → List Token
  | [] => []
  | d :: ds => d.binders ++ FunctionDecl.bindersAll ds

end

namespace Renaming

variable (r : Renaming)

/-- A token of a source in which the new name does not occur. -/
structure Fresh (t : Token) : Prop where
  spelled : t.Spelled
  new : t.lexeme ≠ r.new

/-- The use is not of the new name, and a keyword is not a use of the old one. -/
structure Admits (u : Use Unit) : Prop where
  new : u.token.lexeme ≠ r.new
  word : u.tag = .this ∨ u.tag = .super → u.token.lexeme ≠ r.old

/-- What is known of the uses and declarations of a program in which the new name is fresh. -/
structure Avoids (uses : List (Use Unit)) (binders : List Token) : Prop where
  uses : ∀ u ∈ uses, r.Admits u
  binders : ∀ t ∈ binders, t.lexeme ≠ r.new

variable {r}

theorem avoids_append {uses others : List (Use Unit)} {binders more : List Token} :
    r.Avoids (uses ++ others) (binders ++ more) ↔ r.Avoids uses binders ∧ r.Avoids others more := by
  constructor
  · rintro ⟨huses, hbinders⟩
    rw [List.forall_mem_append] at huses hbinders
    exact ⟨⟨huses.1, hbinders.1⟩, ⟨huses.2, hbinders.2⟩⟩
  · rintro ⟨⟨huses, hbinders⟩, ⟨hothers, hmore⟩⟩
    exact ⟨List.forall_mem_append.mpr ⟨huses, hothers⟩,
      List.forall_mem_append.mpr ⟨hbinders, hmore⟩⟩

theorem Avoids.after_uses {earlier uses : List (Use Unit)} {binders : List Token}
    (hearlier : ∀ u ∈ earlier, r.Admits u) (h : r.Avoids uses binders) :
    r.Avoids (earlier ++ uses) binders :=
  ⟨List.forall_mem_append.mpr ⟨hearlier, h.uses⟩, h.binders⟩

theorem Fresh.admits {t : Token} (h : r.Fresh t) {tag : Use.Tag}
    (htag : tag = .variable ∨ tag = .assign) : r.Admits ⟨tag, t, ()⟩ := by
  refine ⟨h.new, fun hword => ?_⟩
  rcases htag with rfl | rfl <;> simp at hword

theorem Fresh.admits_this {t : Token} (h : r.Fresh t) (hkind : t.kind = .thisWord) :
    r.Admits ⟨.this, t, ()⟩ := by
  refine ⟨h.new, fun _ hold => ?_⟩
  exact (plain_of_isName r.isName_old).1 (hold.symm.trans (h.spelled.this hkind))

theorem Fresh.admits_super {t : Token} (h : r.Fresh t) (hkind : t.kind = .superWord) :
    r.Admits ⟨.super, t, ()⟩ := by
  refine ⟨h.new, fun _ hold => ?_⟩
  exact (plain_of_isName r.isName_old).2 (hold.symm.trans (h.spelled.super hkind))

end Renaming

/-! ### Trees of fresh tokens -/

namespace Grammar

variable {r : Renaming}

def Phrase.uses : (x : Phrase) → x.Tree → List (Use Unit)
  | .level _, e => e.uses
  | .arguments, es => Expr.usesAll es

theorem Chain.uses_node (c : Chain) (l : Expr Unit) (t : Token) (e : Expr Unit) :
    (c.node l t e).uses = l.uses ++ e.uses := by
  cases c <;> rfl

theorem Phrase.Derives.admits {x : Phrase} {u : List Token} {e : x.Tree} (h : x.Derives u e)
    (hu : ∀ t ∈ u, r.Fresh t) : ∀ a ∈ x.uses e, r.Admits a := by
  induction h with
  | assignName _ _ _ ih =>
      simp only [List.forall_mem_cons] at hu
      exact List.forall_mem_cons.mpr ⟨hu.1.admits (.inr rfl), ih hu.2.2⟩
  | assignField _ _ _ _ _ ihobject ihvalue =>
      simp only [List.forall_mem_append, List.forall_mem_cons] at hu
      exact List.forall_mem_append.mpr ⟨ihobject hu.1, ihvalue hu.2.2.2.2⟩
  | noAssignment _ ih => exact ih hu
  | @operator c _ _ t l e _ _ _ ihleft ihright =>
      simp only [List.forall_mem_append, List.forall_mem_cons] at hu
      rw [Phrase.uses, c.uses_node]
      exact List.forall_mem_append.mpr ⟨ihleft hu.1, ihright hu.2.2⟩
  | operand _ ih => exact ih hu
  | unary _ _ ih =>
      simp only [List.forall_mem_cons] at hu
      exact ih hu.2
  | noUnary _ ih => exact ih hu
  | callNothing _ _ _ ih =>
      simp only [List.forall_mem_append] at hu
      exact List.forall_mem_append.mpr ⟨ih hu.1, List.forall_mem_nil _⟩
  | callWith _ _ _ _ _ ih iharguments =>
      simp only [List.forall_mem_append, List.forall_mem_cons] at hu
      exact List.forall_mem_append.mpr ⟨ih hu.1.1, iharguments hu.1.2.2⟩
  | get _ _ _ ih =>
      simp only [List.forall_mem_append] at hu
      exact ih hu.1
  | noCall _ ih => exact ih hu
  | falseWord _ | trueWord _ | nilWord _ | literal _ => exact List.forall_mem_nil _
  | this h =>
      rw [List.forall_mem_singleton] at hu
      exact List.forall_mem_singleton.mpr (hu.admits_this h)
  | name _ =>
      rw [List.forall_mem_singleton] at hu
      exact List.forall_mem_singleton.mpr (hu.admits (.inl rfl))
  | group _ _ _ ih =>
      simp only [List.forall_mem_append, List.forall_mem_cons] at hu
      exact ih hu.1.2
  | super hkeyword _ _ =>
      simp only [List.forall_mem_cons] at hu
      exact List.forall_mem_singleton.mpr (hu.1.admits_super hkeyword)
  | argument _ ih => exact List.forall_mem_append.mpr ⟨ih hu, List.forall_mem_nil _⟩
  | arguments _ _ _ ih ihothers =>
      simp only [List.forall_mem_append, List.forall_mem_cons] at hu
      exact List.forall_mem_append.mpr ⟨ih hu.1, ihothers hu.2.2⟩

theorem Expression.admits {u : List Token} {e : Expr Unit} (h : Expression u e)
    (hu : ∀ t ∈ u, r.Fresh t) : ∀ a ∈ e.uses, r.Admits a :=
  Phrase.Derives.admits h hu

theorem Optionally.admits {u : List Token} {e : Option (Expr Unit)}
    (h : Optionally Expression u e) (hu : ∀ t ∈ u, r.Fresh t) :
    ∀ a ∈ Expr.usesOf e, r.Admits a := by
  cases h with
  | absent => exact List.forall_mem_nil _
  | present h => exact Expression.admits h hu

theorem ExpressionStatement.avoids {u : List Token} {s : Stmt Unit} (h : ExpressionStatement u s)
    (hu : ∀ t ∈ u, r.Fresh t) : r.Avoids s.uses s.binders := by
  obtain ⟨h, -⟩ := h
  rw [List.forall_mem_append] at hu
  exact ⟨Expression.admits h hu.1, List.forall_mem_nil _⟩

theorem VariableDeclaration.avoids {u : List Token} {s : Stmt Unit} (h : VariableDeclaration u s)
    (hu : ∀ t ∈ u, r.Fresh t) : r.Avoids s.uses s.binders := by
  cases h with
  | plain _ _ _ =>
      simp only [List.forall_mem_cons] at hu
      exact ⟨List.forall_mem_nil _, List.forall_mem_singleton.mpr hu.2.1.new⟩
  | initialized _ _ _ h _ =>
      simp only [List.forall_mem_append, List.forall_mem_cons] at hu
      exact ⟨Expression.admits h hu.1.2.2.2, List.forall_mem_singleton.mpr hu.1.2.1.new⟩

theorem Superclass.admits {u : List Token} {base : Option (Token × Unit)} (h : Superclass u base)
    (hu : ∀ t ∈ u, r.Fresh t) : ∀ a ∈ Use.ofSuperclass base, r.Admits a := by
  cases h with
  | absent => exact List.forall_mem_nil _
  | present _ _ =>
      simp only [List.forall_mem_cons] at hu
      exact List.forall_mem_singleton.mpr (hu.2.1.admits (.inl rfl))

theorem Parameters.fresh {u params : List Token} (h : Parameters u params)
    (hu : ∀ t ∈ u, r.Fresh t) : ∀ param ∈ params, param.lexeme ≠ r.new := by
  cases h with
  | absent => exact List.forall_mem_nil _
  | present h hlimit =>
      clear hlimit
      induction h with
      | one h =>
          obtain ⟨rfl, -⟩ := h
          exact fun param hparam => (hu param hparam).new
      | more h _ _ ih =>
          obtain ⟨rfl, -⟩ := h
          simp only [List.forall_mem_append, List.forall_mem_cons] at hu ⊢
          exact ⟨hu.1.1.new, ih hu.2.2⟩

theorem Initializer.avoids {u : List Token} {init : Option (Stmt Unit)} (h : Initializer u init)
    (hu : ∀ t ∈ u, r.Fresh t) {loop : Stmt Unit} (hloop : r.Avoids loop.uses loop.binders) :
    r.Avoids (withInitializer init loop).uses (withInitializer init loop).binders := by
  have hblock {s : Stmt Unit} (hs : r.Avoids s.uses s.binders) :
      r.Avoids (Stmt.block [s, loop]).uses (Stmt.block [s, loop]).binders := by
    simp only [Stmt.uses, Stmt.usesAll, Stmt.binders, Stmt.bindersAll, List.append_nil]
    exact Renaming.avoids_append.mpr ⟨hs, hloop⟩
  cases h with
  | absent _ => exact hloop
  | variableDecl h => exact hblock (h.avoids hu)
  | expressionStmt h => exact hblock (h.avoids hu)

theorem avoids_whileTree {condition : Option (Expr Unit)}
    (hcondition : ∀ a ∈ Expr.usesOf condition, r.Admits a) {body : Stmt Unit}
    (hbody : r.Avoids body.uses body.binders) :
    r.Avoids (whileTree condition body).uses (whileTree condition body).binders := by
  cases condition with
  | none => exact hbody
  | some condition => exact hbody.after_uses hcondition

theorem avoids_withIncrement {increment : Option (Expr Unit)}
    (hincrement : ∀ a ∈ Expr.usesOf increment, r.Admits a) {body : Stmt Unit}
    (hbody : r.Avoids body.uses body.binders) :
    r.Avoids (withIncrement increment body).uses (withIncrement increment body).binders := by
  cases increment with
  | none => exact hbody
  | some e =>
      simp only [withIncrement, Stmt.uses, Stmt.usesAll, Stmt.binders, Stmt.bindersAll,
        List.append_nil]
      exact ⟨List.forall_mem_append.mpr ⟨hbody.uses, hincrement⟩, hbody.binders⟩

def Clause.uses : (x : Clause) → x.Tree → List (Use Unit)
  | .statement _, s => s.uses
  | .declaration, s => s.uses
  | .declarations, ss => Stmt.usesAll ss
  | .function, d => d.uses
  | .methods, ds => FunctionDecl.usesAll ds

/-- The name of a function that is declared on its own is one of the tokens that declare a name. -/
def Clause.binders : (x : Clause) → x.Tree → List Token
  | .statement _, s => s.binders
  | .declaration, s => s.binders
  | .declarations, ss => Stmt.bindersAll ss
  | .function, d => d.name :: d.binders
  | .methods, ds => FunctionDecl.bindersAll ds

theorem Clause.Derives.avoids {nearest : Bool} {x : Clause} {u : List Token} {t : x.Tree}
    (h : x.Derives nearest u t) (hu : ∀ t ∈ u, r.Fresh t) : r.Avoids (x.uses t) (x.binders t) := by
  induction h with
  | exprStmt h => exact h.avoids hu
  | printStmt _ h _ =>
      simp only [List.forall_mem_append, List.forall_mem_cons] at hu
      exact ⟨Expression.admits h hu.1.2, List.forall_mem_nil _⟩
  | returnStmt _ h _ =>
      simp only [List.forall_mem_append, List.forall_mem_cons] at hu
      exact ⟨h.admits hu.1.2, List.forall_mem_nil _⟩
  | blockStmt _ _ _ ih =>
      simp only [List.forall_mem_append, List.forall_mem_cons] at hu
      exact ih hu.1.2
  | whileStmt _ _ hcondition _ _ ih =>
      simp only [List.forall_mem_append, List.forall_mem_cons] at hu
      exact (ih hu.2.2).after_uses (Expression.admits hcondition hu.1.2.2)
  | forStmt _ _ hinit hcondition _ hincrement _ _ ih =>
      simp only [List.forall_mem_append, List.forall_mem_cons] at hu
      obtain ⟨⟨⟨⟨-, -, hu₁⟩, hu₂⟩, -, hu₃⟩, -, hu₄⟩ := hu
      exact hinit.avoids hu₁ (avoids_whileTree (hcondition.admits hu₂)
        (avoids_withIncrement (hincrement.admits hu₃) (ih hu₄)))
  | ifThen _ _ hcondition _ _ ih =>
      simp only [List.forall_mem_append, List.forall_mem_cons] at hu
      exact (ih hu.2.2).after_uses (Expression.admits hcondition hu.1.2.2)
  | ifElse _ _ hcondition _ _ _ _ _ ihyes ihno =>
      simp only [List.forall_mem_append, List.forall_mem_cons] at hu
      have hyes := (ihyes hu.1.2.2).after_uses (Expression.admits hcondition hu.1.1.2.2)
      exact Renaming.avoids_append.mpr ⟨hyes, ihno hu.2.2⟩
  | statementDecl _ ih => exact ih hu
  | variableDecl h => exact h.avoids hu
  | functionDecl _ _ ih =>
      simp only [List.forall_mem_cons] at hu
      exact ih hu.2
  | classDecl _ _ hsuperclass _ _ _ ih =>
      simp only [List.forall_mem_append, List.forall_mem_cons] at hu
      have hmethods := (ih hu.1.2.2).after_uses (hsuperclass.admits hu.1.1.2.2)
      exact ⟨hmethods.uses, List.forall_mem_cons.mpr ⟨hu.1.1.2.1.new, hmethods.binders⟩⟩
  | noDeclarations => exact ⟨List.forall_mem_nil _, List.forall_mem_nil _⟩
  | declarations _ _ ih ihothers =>
      simp only [List.forall_mem_append] at hu
      exact Renaming.avoids_append.mpr ⟨ih hu.1, ihothers hu.2⟩
  | function _ _ hparams _ _ _ _ ih =>
      simp only [List.forall_mem_append, List.forall_mem_cons] at hu
      have hbody := ih hu.1.2.2.2
      refine ⟨hbody.uses, List.forall_mem_cons.mpr ⟨hu.1.1.1.new, ?_⟩⟩
      exact List.forall_mem_append.mpr ⟨hparams.fresh hu.1.1.2.2, hbody.binders⟩
  | noMethods => exact ⟨List.forall_mem_nil _, List.forall_mem_nil _⟩
  | methods _ _ ih ihothers =>
      simp only [List.forall_mem_append] at hu
      have hmethod := ih hu.1
      refine Renaming.avoids_append.mpr ⟨⟨hmethod.uses, ?_⟩, ihothers hu.2⟩
      exact (List.forall_mem_cons.mp hmethod.binders).2

end Grammar

/-! ### Renaming respells the tree -/

section

variable {r : Renaming}

theorem Renaming.Admits.bound_word {tag : Use.Tag} {t : Token} (h : r.Admits ⟨tag, t, ()⟩)
    (htag : tag = .this ∨ tag = .super) : r.bound.word t :=
  ⟨h.word htag, h.new⟩

mutual

theorem Expr.respelled_rename (ctx : Context) (marks : List Bool) : (e : Expr Unit) →
    (∀ u ∈ e.uses, r.Admits u) →
    (e.resolve ctx).Respelled r.bound marks ((e.resolve ctx).rename r marks)
  | .assign name site value, h => by
      rw [Expr.uses, List.forall_mem_cons] at h
      exact .assign ⟨h.1.new, rfl⟩ (Expr.respelled_rename ctx marks value h.2)
  | .binary left operator right, h => by
      rw [Expr.uses, List.forall_mem_append] at h
      exact .binary (Expr.respelled_rename ctx marks left h.1)
        (Expr.respelled_rename ctx marks right h.2)
  | .call callee paren arguments, h => by
      rw [Expr.uses, List.forall_mem_append] at h
      exact .call (Expr.respelled_rename ctx marks callee h.1)
        (Expr.respelled_renameAll ctx marks arguments h.2)
  | .get object name, h => .get (Expr.respelled_rename ctx marks object h)
  | .group inner, h => .group (Expr.respelled_rename ctx marks inner h)
  | .literal value, h => .literal
  | .logical left operator right, h => by
      rw [Expr.uses, List.forall_mem_append] at h
      exact .logical (Expr.respelled_rename ctx marks left h.1)
        (Expr.respelled_rename ctx marks right h.2)
  | .set object name value, h => by
      rw [Expr.uses, List.forall_mem_append] at h
      exact .set (Expr.respelled_rename ctx marks object h.1)
        (Expr.respelled_rename ctx marks value h.2)
  | .super keyword site method, h => by
      rw [Expr.uses, List.forall_mem_singleton] at h
      exact .super (h.bound_word (.inr rfl))
  | .this keyword site, h => by
      rw [Expr.uses, List.forall_mem_singleton] at h
      exact .this (h.bound_word (.inl rfl))
  | .unary operator operand, h => .unary (Expr.respelled_rename ctx marks operand h)
  | .read name site, h => by
      rw [Expr.uses, List.forall_mem_singleton] at h
      exact .read ⟨h.new, rfl⟩

theorem Expr.respelled_renameAll (ctx : Context) (marks : List Bool) : (es : List (Expr Unit)) →
    (∀ u ∈ Expr.usesAll es, r.Admits u) →
    List.Forall₂ (Expr.Respelled r.bound marks) (Expr.resolveAll ctx es)
      (Expr.renameAll r marks (Expr.resolveAll ctx es))
  | [], h => .nil
  | e :: es, h => by
      rw [Expr.usesAll, List.forall_mem_append] at h
      exact .cons (Expr.respelled_rename ctx marks e h.1)
        (Expr.respelled_renameAll ctx marks es h.2)

end

theorem Expr.respelledOf_rename (ctx : Context) (marks : List Bool) {e : Option (Expr Unit)}
    (h : ∀ u ∈ Expr.usesOf e, r.Admits u) :
    Expr.RespelledOf r.bound marks (e.map (Expr.resolve ctx))
      ((e.map (Expr.resolve ctx)).map (Expr.rename r marks)) := by
  cases e with
  | none => exact .none
  | some e => exact .some (Expr.respelled_rename ctx marks e h)

theorem respelledBase_rename (ctx : Context) (marks : List Bool) {base : Option (Token × Unit)}
    (h : ∀ u ∈ Use.ofSuperclass base, r.Admits u) :
    RespelledBase r.bound marks (base.map fun base => (base.1, ctx.locate base.1.lexeme))
      ((base.map fun base => (base.1, ctx.locate base.1.lexeme)).map (renameBase r marks)) := by
  cases base with
  | none => exact .none
  | some base =>
      rw [Use.ofSuperclass, List.forall_mem_singleton] at h
      exact .some ⟨h.new, rfl⟩

/-- If the innermost scope is marked, the statement declares the old name in it as a variable or not
at all. -/
def Stmt.Kept {ρ : Type} (r : Renaming) (marks : List Bool) (s : Stmt ρ) : Prop :=
  marked marks (some 0) = true → ∀ t ∈ s.declared, t.lexeme = r.old → ∃ init, s = .var t init

theorem Stmt.kept_inside {ρ : Type} (marks : List Bool) (s : Stmt ρ) :
    s.Kept r (false :: marks) :=
  fun hmarked => nomatch hmarked

theorem Renaming.bound_binder_self {marks : List Bool} {t : Token} (hnew : t.lexeme ≠ r.new)
    (hkept : marked marks (some 0) = true → t.lexeme ≠ r.old) : r.bound.binder marks t t := by
  refine ⟨hnew, ?_⟩
  rw [Renaming.binder, Renaming.use, Renaming.token, if_neg]
  rintro ⟨hmarked, hold⟩
  exact hkept hmarked hold

mutual

theorem Stmt.respelled_rename (ctx : Context) (marks : List Bool) : (s : Stmt Unit) →
    r.Avoids s.uses s.binders → s.Kept r marks →
    (s.resolve ctx).Respelled r.bound marks ((s.resolve ctx).rename r marks)
  | .block body, h, _ => .block <|
      Stmt.respelled_renameAll _ _ body h fun s _ => s.kept_inside marks
  | .class name superclass methods, h, hkept => by
      rw [Stmt.binders, ← List.singleton_append, Stmt.uses, Renaming.avoids_append] at h
      have hname : r.bound.binder marks name name := by
        refine Renaming.bound_binder_self (h.1.binders name List.mem_cons_self) ?_
        intro hmarked hold
        obtain ⟨init, hvar⟩ := hkept hmarked name List.mem_cons_self hold
        cases hvar
      refine .class hname (respelledBase_rename _ marks h.1.uses) ?_
      rw [Option.isSome_map]
      exact FunctionDecl.respelled_renameAll _ _ methods h.2
  | .expr e, h, _ => .expr (Expr.respelled_rename ctx marks e h.uses)
  | .function decl, h, hkept => by
      rw [Stmt.binders, ← List.singleton_append, Stmt.uses, ← List.nil_append decl.uses,
        Renaming.avoids_append] at h
      refine .function ?_ (FunctionDecl.respelled_rename _ .function marks false decl h.2
        fun s _ => s.kept_inside marks)
      rw [FunctionDecl.name_resolve]
      refine Renaming.bound_binder_self (h.1.binders decl.name List.mem_cons_self) ?_
      intro hmarked hold
      obtain ⟨init, hvar⟩ := hkept hmarked decl.name List.mem_cons_self hold
      cases hvar
  | .ifThen condition thenBranch, h, hkept => by
      rw [Stmt.binders, ← List.nil_append thenBranch.binders, Stmt.uses,
        Renaming.avoids_append] at h
      refine .ifThen (Expr.respelled_rename ctx marks condition h.1.uses) ?_
      refine Stmt.respelled_rename ctx marks thenBranch h.2 fun hmarked t ht hold => ?_
      obtain ⟨init, hvar⟩ := hkept hmarked t ht hold
      cases hvar
  | .ifElse condition thenBranch elseBranch, h, hkept => by
      rw [Stmt.binders, Stmt.uses, Renaming.avoids_append] at h
      obtain ⟨hthen, helse⟩ := h
      rw [← List.nil_append thenBranch.binders, Renaming.avoids_append] at hthen
      -- A branch declares no old name, for the whole statement is no variable.
      have hnone (hmarked : marked marks (some 0) = true) :
          ∀ t ∈ thenBranch.declared ++ elseBranch.declared, t.lexeme ≠ r.old := by
        intro t ht hold
        obtain ⟨init, hvar⟩ := hkept hmarked t ht hold
        cases hvar
      refine .ifElse (Expr.respelled_rename ctx marks condition hthen.1.uses) ?_ ?_
      · refine Stmt.respelled_rename ctx marks thenBranch hthen.2 fun hmarked t ht hold => ?_
        exact absurd hold (hnone hmarked t (List.mem_append_left _ ht))
      · refine Stmt.respelled_rename _ marks elseBranch helse fun hmarked t ht hold => ?_
        exact absurd hold (hnone hmarked t (List.mem_append_right _ ht))
  | .print e, h, _ => .print (Expr.respelled_rename ctx marks e h.uses)
  | .return keyword value, h, _ => .return (Expr.respelledOf_rename ctx marks h.uses)
  | .var name init, h, _ =>
      .var ⟨h.binders name List.mem_cons_self, rfl⟩ (Expr.respelledOf_rename _ marks h.uses)
  | .while condition body, h, hkept => by
      rw [Stmt.binders, ← List.nil_append body.binders, Stmt.uses, Renaming.avoids_append] at h
      refine .while (Expr.respelled_rename ctx marks condition h.1.uses) ?_
      refine Stmt.respelled_rename ctx marks body h.2 fun hmarked t ht hold => ?_
      obtain ⟨init, hvar⟩ := hkept hmarked t ht hold
      cases hvar

theorem Stmt.respelled_renameAll (ctx : Context) (marks : List Bool) : (ss : List (Stmt Unit)) →
    r.Avoids (Stmt.usesAll ss) (Stmt.bindersAll ss) → (∀ s ∈ ss, s.Kept r marks) →
    Stmt.RespelledAll r.bound marks (Stmt.resolveAll ctx ss)
      (Stmt.renameAll r marks (Stmt.resolveAll ctx ss))
  | [], _, _ => .nil
  | s :: ss, h, hkept => by
      rw [Stmt.usesAll, Stmt.bindersAll, Renaming.avoids_append] at h
      rw [List.forall_mem_cons] at hkept
      exact .cons (Stmt.respelled_rename ctx marks s h.1 hkept.1)
        (Stmt.respelled_renameAll _ marks ss h.2 hkept.2)

theorem FunctionDecl.respelled_rename (ctx : Context) (kind : FunctionKind) (marks : List Bool)
    (isMarked : Bool) : (d : FunctionDecl Unit) → r.Avoids d.uses d.binders →
    (∀ s ∈ d.body, s.Kept r (isMarked :: marks)) →
    (d.resolve ctx kind).Respelled r.bound marks
      ((d.resolve ctx kind).rename r (isMarked :: marks))
  | ⟨name, params, body⟩, h, hkept => by
      rw [FunctionDecl.binders, FunctionDecl.uses, ← List.nil_append (Stmt.usesAll body),
        Renaming.avoids_append] at h
      have hparams : List.Forall₂ (r.bound.binder (isMarked :: marks)) params
          (params.map (r.binder (isMarked :: marks))) :=
        List.forall₂_map_right_iff.mpr
          (List.forall₂_same.mpr fun t ht => ⟨h.1.binders t ht, rfl⟩)
      exact .mk hparams (Stmt.respelled_renameAll _ _ body h.2 hkept)

theorem FunctionDecl.respelled_renameAll (ctx : Context) (marks : List Bool) :
    (ds : List (FunctionDecl Unit)) →
    r.Avoids (FunctionDecl.usesAll ds) (FunctionDecl.bindersAll ds) →
    FunctionDecl.RespelledAll r.bound marks (FunctionDecl.resolveMethods ctx ds)
      (FunctionDecl.renameAll r marks (FunctionDecl.resolveMethods ctx ds))
  | [], _ => .nil
  | d :: ds, h => by
      rw [FunctionDecl.usesAll, FunctionDecl.bindersAll, Renaming.avoids_append] at h
      exact .cons (FunctionDecl.respelled_rename ctx _ marks false d h.1
          fun s _ => s.kept_inside marks)
        (FunctionDecl.respelled_renameAll ctx marks ds h.2)

end

/-! ### Where no scope is marked -/

/-- No scope around is marked. -/
def Unmarked (marks : List Bool) : Prop :=
  ∀ site, marked marks site = false

theorem unmarked_nil : Unmarked [] := by
  rintro (_ | d) <;> rfl

theorem Unmarked.cons {marks : List Bool} (h : Unmarked marks) : Unmarked (false :: marks) := by
  rintro (_ | _ | d)
  · rfl
  · rfl
  · exact h (some d)

theorem Unmarked.methodMarks {marks : List Bool} (h : Unmarked marks) (derived : Bool) :
    Unmarked (methodMarks derived marks) := by
  cases derived with
  | false => exact h.cons
  | true => exact h.cons.cons

theorem Unmarked.use {marks : List Bool} (h : Unmarked marks) (site : Site) (t : Token) :
    r.use marks site t = t := by
  rw [Renaming.use, h site, Renaming.token_false]

theorem Unmarked.binder {marks : List Bool} (h : Unmarked marks) (t : Token) :
    r.binder marks t = t :=
  h.use (some 0) t

mutual

theorem Expr.rename_of_unmarked {marks : List Bool} (h : Unmarked marks) :
    (e : Expr Site) → e.rename r marks = e
  | .assign name site value => by rw [Expr.rename, h.use, value.rename_of_unmarked h]
  | .binary left operator right => by
      rw [Expr.rename, left.rename_of_unmarked h, right.rename_of_unmarked h]
  | .call callee paren arguments => by
      rw [Expr.rename, callee.rename_of_unmarked h, Expr.renameAll_of_unmarked h arguments]
  | .get object name => by rw [Expr.rename, object.rename_of_unmarked h]
  | .group inner => by rw [Expr.rename, inner.rename_of_unmarked h]
  | .literal value => rfl
  | .logical left operator right => by
      rw [Expr.rename, left.rename_of_unmarked h, right.rename_of_unmarked h]
  | .set object name value => by
      rw [Expr.rename, object.rename_of_unmarked h, value.rename_of_unmarked h]
  | .super keyword site method => rfl
  | .this keyword site => rfl
  | .unary operator operand => by rw [Expr.rename, operand.rename_of_unmarked h]
  | .read name site => by rw [Expr.rename, h.use]

theorem Expr.renameAll_of_unmarked {marks : List Bool} (h : Unmarked marks) :
    (es : List (Expr Site)) → Expr.renameAll r marks es = es
  | [] => rfl
  | e :: es => by rw [Expr.renameAll, e.rename_of_unmarked h, Expr.renameAll_of_unmarked h es]

end

theorem Expr.map_rename_of_unmarked {marks : List Bool} (h : Unmarked marks)
    (e : Option (Expr Site)) : e.map (Expr.rename r marks) = e := by
  cases e with
  | none => rfl
  | some e => exact congrArg some (e.rename_of_unmarked h)

mutual

theorem Stmt.rename_of_unmarked {marks : List Bool} (h : Unmarked marks) :
    (s : Stmt Site) → s.rename r marks = s
  | .block body => by rw [Stmt.rename, Stmt.renameAll_of_unmarked h.cons body]
  | .class name superclass methods => by
      have hbase : superclass.map (renameBase r marks) = superclass := by
        cases superclass with
        | none => rfl
        | some base => simp [renameBase, h.use]
      rw [Stmt.rename, hbase, FunctionDecl.renameAll_of_unmarked (h.methodMarks _) methods]
  | .expr e => by rw [Stmt.rename, e.rename_of_unmarked h]
  | .function decl => by rw [Stmt.rename, decl.rename_of_unmarked h.cons]
  | .ifThen condition thenBranch => by
      rw [Stmt.rename, condition.rename_of_unmarked h, thenBranch.rename_of_unmarked h]
  | .ifElse condition thenBranch elseBranch => by
      rw [Stmt.rename, condition.rename_of_unmarked h, thenBranch.rename_of_unmarked h,
        elseBranch.rename_of_unmarked h]
  | .print e => by rw [Stmt.rename, e.rename_of_unmarked h]
  | .return keyword value => by rw [Stmt.rename, Expr.map_rename_of_unmarked h]
  | .var name init => by rw [Stmt.rename, h.binder, Expr.map_rename_of_unmarked h]
  | .while condition body => by
      rw [Stmt.rename, condition.rename_of_unmarked h, body.rename_of_unmarked h]

theorem Stmt.renameAll_of_unmarked {marks : List Bool} (h : Unmarked marks) :
    (ss : List (Stmt Site)) → Stmt.renameAll r marks ss = ss
  | [] => rfl
  | s :: ss => by rw [Stmt.renameAll, s.rename_of_unmarked h, Stmt.renameAll_of_unmarked h ss]

theorem FunctionDecl.rename_of_unmarked {marks : List Bool} (h : Unmarked marks) :
    (d : FunctionDecl Site) → d.rename r marks = d
  | ⟨name, params, body⟩ => by
      have hparams : params.map (r.binder marks) = params := by
        simp [List.map_congr_left fun t _ => h.binder t]
      rw [FunctionDecl.rename, hparams, Stmt.renameAll_of_unmarked h body]

theorem FunctionDecl.renameAll_of_unmarked {marks : List Bool} (h : Unmarked marks) :
    (ds : List (FunctionDecl Site)) → FunctionDecl.renameAll r marks ds = ds
  | [] => rfl
  | d :: ds => by
      rw [FunctionDecl.renameAll, d.rename_of_unmarked h.cons,
        FunctionDecl.renameAll_of_unmarked h ds]

end

end

end Lox
