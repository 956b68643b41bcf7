import Mathlib.Data.List.Forall2
import Lox.Proofs.Resolution.Walker

/-!
# Where a use stands

The scopes around a use, read off the text: each with the names that it contains at that point. A
scope contains what is declared textually earlier in it. The name of a variable counts from its
declaration on, also in its own initializer, and the name of a function or class from before its body.
The methods of a class stand in a scope with `this`, and if the class has a superclass clause that one
stands in a scope with `super`. This knows nothing of the walk, which agrees with it at every use.
-/

namespace Lox

namespace Resolution

/-- What is around a piece of code. The innermost scope comes first; globals are in none. -/
structure Around where
  scopes : List (List Bytes)
  inClass : Bool

namespace Around

def outermost : Around :=
  ⟨[], false⟩

def declare (a : Around) (names : List Token) : Around :=
  match a.scopes with
  | [] => a
  | scope :: outer => { a with scopes := (scope ++ names.map Token.lexeme) :: outer }

def enter (a : Around) (names : List Bytes) : Around :=
  { a with scopes := names :: a.scopes }

def methods (a : Around) (derived : Bool) : Around :=
  ⟨[thisName] :: if derived then [superName] :: a.scopes else a.scopes, true⟩

/-- The innermost scope that contains the name has so many scopes strictly inside of it. -/
def Finds (a : Around) (name : Bytes) (distance : Nat) : Prop :=
  ∃ inner scope outer, a.scopes = inner ++ scope :: outer ∧ inner.length = distance ∧
    name ∈ scope ∧ ∀ other ∈ inner, name ∉ other

end Around

/-- A part of a program. -/
inductive Part (κ : Type) where
  | expr (e : Expr κ)
  | stmt (s : Stmt κ)
  | body (ss : List (Stmt κ))
  | function (d : FunctionDecl κ)

end Resolution

open Resolution

variable {κ : Type}

namespace Resolution

/-- In the part, which stands in the first surroundings, the use stands in the second ones. -/
inductive Stands : Around → Part κ → Around → Use κ → Prop where
  | use {a : Around} {e : Expr κ} {u : Use κ} (h : u ∈ e.uses) : Stands a (.expr e) a u
  | body {a b : Around} {before after : List (Stmt κ)} {s : Stmt κ} {u : Use κ}
      (h : Stands (a.declare (Stmt.declaredAll before)) (.stmt s) b u) :
      Stands a (.body (before ++ s :: after)) b u
  | block {a b : Around} {body : List (Stmt κ)} {u : Use κ} (h : Stands (a.enter []) (.body body) b u) :
      Stands a (.stmt (.block body)) b u
  | superclass {a : Around} {name base : Token} {place : κ} {methods : List (FunctionDecl κ)} :
      Stands a (.stmt (.class name (some (base, place)) methods)) (a.declare [name])
        ⟨.variable, base, place⟩
  | method {a b : Around} {name : Token} {superclass : Option (Token × κ)}
      {methods : List (FunctionDecl κ)} {d : FunctionDecl κ} {u : Use κ} (hd : d ∈ methods)
      (h : Stands ((a.declare [name]).methods superclass.isSome) (.function d) b u) :
      Stands a (.stmt (.class name superclass methods)) b u
  | function {a b : Around} {decl : FunctionDecl κ} {u : Use κ}
      (h : Stands (a.declare [decl.name]) (.function decl) b u) :
      Stands a (.stmt (.function decl)) b u
  | parameters {a b : Around} {name : Token} {params : List Token} {body : List (Stmt κ)} {u : Use κ}
      (h : Stands (a.enter (params.map Token.lexeme)) (.body body) b u) :
      Stands a (.function ⟨name, params, body⟩) b u
  | initializer {a b : Around} {name : Token} {init : Expr κ} {u : Use κ}
      (h : Stands (a.declare [name]) (.expr init) b u) :
      Stands a (.stmt (.var name (some init))) b u
  | expr {a b : Around} {e : Expr κ} {u : Use κ} (h : Stands a (.expr e) b u) :
      Stands a (.stmt (.expr e)) b u
  | print {a b : Around} {e : Expr κ} {u : Use κ} (h : Stands a (.expr e) b u) :
      Stands a (.stmt (.print e)) b u
  | value {a b : Around} {keyword : Token} {value : Expr κ} {u : Use κ}
      (h : Stands a (.expr value) b u) : Stands a (.stmt (.return keyword (some value))) b u
  | ifCondition {a b : Around} {condition : Expr κ} {thenBranch : Stmt κ} {u : Use κ}
      (h : Stands a (.expr condition) b u) : Stands a (.stmt (.ifThen condition thenBranch)) b u
  | ifBranch {a b : Around} {condition : Expr κ} {thenBranch : Stmt κ} {u : Use κ}
      (h : Stands a (.stmt thenBranch) b u) : Stands a (.stmt (.ifThen condition thenBranch)) b u
  | condition {a b : Around} {condition : Expr κ} {thenBranch elseBranch : Stmt κ} {u : Use κ}
      (h : Stands a (.expr condition) b u) :
      Stands a (.stmt (.ifElse condition thenBranch elseBranch)) b u
  | thenBranch {a b : Around} {condition : Expr κ} {thenBranch elseBranch : Stmt κ} {u : Use κ}
      (h : Stands a (.stmt thenBranch) b u) :
      Stands a (.stmt (.ifElse condition thenBranch elseBranch)) b u
  | elseBranch {a b : Around} {condition : Expr κ} {thenBranch elseBranch : Stmt κ} {u : Use κ}
      (h : Stands (a.declare thenBranch.declared) (.stmt elseBranch) b u) :
      Stands a (.stmt (.ifElse condition thenBranch elseBranch)) b u
  | loopCondition {a b : Around} {condition : Expr κ} {body : Stmt κ} {u : Use κ}
      (h : Stands a (.expr condition) b u) : Stands a (.stmt (.while condition body)) b u
  | loopBody {a b : Around} {condition : Expr κ} {body : Stmt κ} {u : Use κ}
      (h : Stands a (.stmt body) b u) : Stands a (.stmt (.while condition body)) b u

theorem Around.declare_nil (a : Around) : a.declare [] = a := by
  unfold declare
  split
  · rfl
  · obtain ⟨scopes, inClass⟩ := a
    simp_all

theorem Around.declare_declare (a : Around) (names others : List Token) :
    (a.declare names).declare others = a.declare (names ++ others) := by
  cases hscopes : a.scopes with
  | nil => simp [declare, hscopes]
  | cons scope outer => simp [declare, hscopes]

/-! ### The context of the walk -/

/-- The frames of the context contain the names of the scopes around. -/
structure Context.Agrees (ctx : Context) (a : Around) : Prop where
  scopes : List.Forall₂ (fun frame names => ∀ name, (frame.lookup name).isSome ↔ name ∈ names)
    ctx.scopes a.scopes
  inClass : ctx.classKind ≠ .none ↔ a.inClass = true

section Agrees

variable {ctx : Context} {a : Around}

theorem agrees_top : Context.top.Agrees .outermost :=
  ⟨.nil, by simp [Context.top, Around.outermost]⟩

theorem Context.Agrees.mark (h : ctx.Agrees a) (name : Token) (ready : Bool) :
    (ctx.mark name.lexeme ready).Agrees (a.declare [name]) := by
  obtain ⟨hscopes, hclass⟩ := h
  refine ⟨?_, ?_⟩
  · unfold Context.mark Around.declare
    cases hframes : ctx.scopes with
    | nil =>
        rw [hframes, List.forall₂_nil_left_iff] at hscopes
        simp [hframes, hscopes]
    | cons frame outer =>
        rw [hframes] at hscopes
        cases ha : a.scopes with
        | nil => simp [ha] at hscopes
        | cons names others =>
            rw [ha, List.forall₂_cons] at hscopes
            refine List.forall₂_cons.mpr ⟨fun other => ?_, hscopes.2⟩
            rw [List.lookup_cons]
            by_cases heq : other = name.lexeme
            · simp [heq]
            · simp [heq, beq_eq_false_iff_ne.mpr heq, hscopes.1 other]
  · rw [classKind_mark, hclass]
    unfold Around.declare
    split <;> rfl

theorem Context.Agrees.foldl_define (h : ctx.Agrees a) (names : List Token) :
    (names.foldl Context.define ctx).Agrees (a.declare names) := by
  induction names generalizing ctx a with
  | nil => rwa [Around.declare_nil]
  | cons name names ih =>
      have hrest := ih (h.mark name true)
      rwa [Around.declare_declare] at hrest

theorem Context.Agrees.after (h : ctx.Agrees a) (s : Stmt κ) :
    (ctx.after s).Agrees (a.declare s.declared) := by
  rw [after_eq_foldl]
  exact h.foldl_define s.declared

theorem Context.Agrees.foldl_after (h : ctx.Agrees a) (ss : List (Stmt κ)) :
    (ss.foldl Context.after ctx).Agrees (a.declare (Stmt.declaredAll ss)) := by
  induction ss generalizing ctx a with
  | nil => rwa [Stmt.declaredAll, List.flatMap_nil, Around.declare_nil]
  | cons s ss ih =>
      have hrest := ih (h.after s)
      rwa [Around.declare_declare] at hrest

theorem Context.Agrees.enter (h : ctx.Agrees a) : (ctx.enter []).Agrees (a.enter []) :=
  ⟨List.forall₂_cons.mpr ⟨by simp, h.scopes⟩, h.inClass⟩

theorem Context.Agrees.inFunction (h : ctx.Agrees a) (kind : FunctionKind) (params : List Token) :
    (ctx.inFunction kind params).Agrees (a.enter (params.map Token.lexeme)) := by
  have hempty : (({ ctx with function := kind } : Context).enter []).Agrees (a.enter []) :=
    ⟨List.forall₂_cons.mpr ⟨by simp, h.scopes⟩, h.inClass⟩
  exact hempty.foldl_define params

theorem Context.Agrees.methods (h : ctx.Agrees a) (derived : Bool) :
    (ctx.inClass derived).Agrees (a.methods derived) := by
  have hword (word name : Bytes) : (([(word, true)] : Frame).lookup name).isSome ↔ name ∈ [word] := by
    rw [List.lookup_cons, List.mem_singleton]
    by_cases heq : name = word
    · simp [heq]
    · simp [heq, beq_eq_false_iff_ne.mpr heq]
  cases derived with
  | false => exact ⟨.cons (hword thisName) h.scopes, by simp [Context.inClass, Context.enter, Around.methods]⟩
  | true =>
      exact ⟨.cons (hword thisName) (.cons (hword superName) h.scopes),
        by simp [Context.inClass, Context.enter, Around.methods]⟩

/-- The walk finds a name where the innermost scope with it is. -/
theorem Context.Agrees.locate (h : ctx.Agrees a) (name : Bytes) (distance : Nat) :
    ctx.locate name = some distance ↔ a.Finds name distance := by
  have hscopes := h.scopes
  unfold Context.locate Around.Finds
  generalize ctx.scopes = frames, a.scopes = scopes at hscopes ⊢
  induction hscopes generalizing distance with
  | nil => simp
  | @cons frame names frames scopes hframe _ ih =>
      rw [List.findIdx?_cons]
      by_cases hname : name ∈ names
      · rw [if_pos ((hframe name).mpr hname), Option.some.injEq]
        constructor
        · rintro rfl
          exact ⟨[], names, scopes, rfl, rfl, hname, by simp⟩
        · rintro ⟨inner, scope, outer, hsplit, rfl, -, hinner⟩
          cases inner with
          | nil => rfl
          | cons other inner =>
              obtain rfl : names = other := (List.cons.inj hsplit).1
              exact absurd hname (hinner names List.mem_cons_self)
      · rw [if_neg fun hsome => hname ((hframe name).mp hsome), Option.map_eq_some_iff]
        constructor
        · rintro ⟨d, hd, rfl⟩
          obtain ⟨inner, scope, outer, rfl, rfl, hscope, hinner⟩ := (ih d).mp hd
          exact ⟨names :: inner, scope, outer, rfl, rfl, hscope,
            List.forall_mem_cons.mpr ⟨hname, hinner⟩⟩
        · rintro ⟨inner, scope, outer, hsplit, rfl, hscope, hinner⟩
          cases inner with
          | nil =>
              obtain rfl : names = scope := (List.cons.inj hsplit).1
              exact absurd hscope hname
          | cons other inner =>
              obtain ⟨-, rfl⟩ := List.cons.inj hsplit
              exact ⟨inner.length, (ih _).mpr ⟨inner, scope, outer, rfl, rfl, hscope,
                fun other hother => hinner other (List.mem_cons_of_mem _ hother)⟩, rfl⟩

theorem Context.Agrees.siteOf (h : ctx.Agrees a) (u : Use κ) (distance : Nat) :
    ctx.siteOf u = some distance ↔
      (u.tag = .this → a.inClass = true) ∧ a.Finds u.token.lexeme distance := by
  unfold Context.siteOf Context.locateThis
  by_cases htag : u.tag = .this
  · by_cases hclass : ctx.classKind = .none
    · have hnone : a.inClass ≠ true := fun hin => h.inClass.mpr hin hclass
      simp [htag, hclass, hnone]
    · simp [htag, hclass, h.inClass.mp hclass, h.locate]
  · simp [htag, h.locate]

end Agrees

/-! ### The walk visits what stands somewhere, and nothing else -/

/-- The visits to a part; the kind is that of a function. -/
def Part.visits (ctx : Context) (kind : FunctionKind) : Part κ → List (Context × Use κ)
  | .expr e => e.visits ctx
  | .stmt s => s.visits ctx
  | .body ss => Stmt.visitsAll ctx ss
  | .function d => d.visits ctx kind

end Resolution

mutual

theorem Expr.order_perm : (e : Expr κ) → e.order.Perm e.uses
  | .assign _ _ value => (List.perm_append_singleton _ _).trans (value.order_perm.cons _)
  | .binary left _ right => left.order_perm.append right.order_perm
  | .call callee _ arguments => callee.order_perm.append (Expr.orderAll_perm arguments)
  | .get object _ => object.order_perm
  | .group inner => inner.order_perm
  | .literal _ => .nil
  | .logical left _ right => left.order_perm.append right.order_perm
  | .set object _ value => List.perm_append_comm.trans (object.order_perm.append value.order_perm)
  | .super .. => .refl _
  | .this .. => .refl _
  | .unary _ operand => operand.order_perm
  | .read .. => .refl _

theorem Expr.orderAll_perm : (es : List (Expr κ)) → (Expr.orderAll es).Perm (Expr.usesAll es)
  | [] => .nil
  | e :: es => e.order_perm.append (Expr.orderAll_perm es)

end

theorem Resolution.map_snd_reached (ctx : Context) (us : List (Use κ)) :
    (us.map fun u => (ctx, u)).map Prod.snd = us := by
  rw [List.map_map]
  exact List.map_id us

theorem Expr.visits_perm (ctx : Context) (e : Expr κ) :
    ((e.visits ctx).map Prod.snd).Perm e.uses := by
  rw [Expr.visits, map_snd_reached]
  exact e.order_perm

theorem Expr.visitsOf_perm (ctx : Context) (e : Option (Expr κ)) :
    ((Expr.visitsOf ctx e).map Prod.snd).Perm (Expr.usesOf e) := by
  cases e with
  | none => exact .nil
  | some e => exact e.visits_perm ctx

mutual

theorem Stmt.visits_perm (ctx : Context) :
    (s : Stmt κ) → ((s.visits ctx).map Prod.snd).Perm s.uses
  | .block body => Stmt.visitsAll_perm _ body
  | .class name superclass methods => by
      rw [Stmt.visits, Stmt.uses, List.map_append, map_snd_reached]
      exact (FunctionDecl.visitsAll_perm _ methods).append_left _
  | .expr e => e.visits_perm ctx
  | .function decl => decl.visits_perm _ _
  | .ifThen condition thenBranch => by
      rw [Stmt.visits, Stmt.uses, List.map_append]
      exact (condition.visits_perm ctx).append (thenBranch.visits_perm ctx)
  | .ifElse condition thenBranch elseBranch => by
      rw [Stmt.visits, Stmt.uses, List.map_append, List.map_append]
      exact ((condition.visits_perm ctx).append (thenBranch.visits_perm ctx)).append
        (elseBranch.visits_perm _)
  | .print e => e.visits_perm ctx
  | .return keyword value => Expr.visitsOf_perm ctx value
  | .var name init => Expr.visitsOf_perm _ init
  | .while condition body => by
      rw [Stmt.visits, Stmt.uses, List.map_append]
      exact (condition.visits_perm ctx).append (body.visits_perm ctx)

theorem Stmt.visitsAll_perm (ctx : Context) :
    (ss : List (Stmt κ)) → ((Stmt.visitsAll ctx ss).map Prod.snd).Perm (Stmt.usesAll ss)
  | [] => .nil
  | s :: ss => by
      rw [Stmt.visitsAll, Stmt.usesAll, List.map_append]
      exact (s.visits_perm ctx).append (Stmt.visitsAll_perm _ ss)

theorem FunctionDecl.visits_perm (ctx : Context) (kind : FunctionKind) :
    (d : FunctionDecl κ) → ((d.visits ctx kind).map Prod.snd).Perm d.uses
  | ⟨_, _, body⟩ => Stmt.visitsAll_perm _ body

theorem FunctionDecl.visitsAll_perm (ctx : Context) :
    (ds : List (FunctionDecl κ)) →
      ((FunctionDecl.visitsAll ctx ds).map Prod.snd).Perm (FunctionDecl.usesAll ds)
  | [] => .nil
  | d :: ds => by
      rw [FunctionDecl.visitsAll, FunctionDecl.usesAll, List.map_append]
      exact (d.visits_perm ctx _).append (FunctionDecl.visitsAll_perm ctx ds)

end

theorem Stmt.visitsAll_append (ctx : Context) (ss ss' : List (Stmt κ)) :
    Stmt.visitsAll ctx (ss ++ ss') =
      Stmt.visitsAll ctx ss ++ Stmt.visitsAll (ss.foldl Context.after ctx) ss' := by
  induction ss generalizing ctx with
  | nil => rfl
  | cons s ss ih => simp [Stmt.visitsAll, ih]

theorem FunctionDecl.mem_visitsAll {ctx : Context} {ds : List (FunctionDecl κ)}
    {v : Context × Use κ} :
    v ∈ FunctionDecl.visitsAll ctx ds ↔
      ∃ d ∈ ds, v ∈ d.visits ctx (Context.methodKind d.name) := by
  induction ds with
  | nil => simp [FunctionDecl.visitsAll]
  | cons d ds ih => simp [FunctionDecl.visitsAll, ih]

namespace Resolution

theorem Stands.exists_visit {a b : Around} {part : Part κ} {u : Use κ} (h : Stands a part b u)
    {ctx : Context} (kind : FunctionKind) (ha : ctx.Agrees a) :
    ∃ ctx' : Context, ctx'.Agrees b ∧ (ctx', u) ∈ part.visits ctx kind := by
  induction h generalizing ctx kind with
  | use h => exact ⟨ctx, ha, by simpa [Part.visits, Expr.visits] using (Expr.order_perm _).mem_iff.mpr h⟩
  | @body a b before after s u h ih =>
      obtain ⟨ctx', hb, hmem⟩ := ih kind (ha.foldl_after before)
      refine ⟨ctx', hb, ?_⟩
      rw [Part.visits, Stmt.visitsAll_append, Stmt.visitsAll]
      exact List.mem_append_right _ (List.mem_append_left _ hmem)
  | block h ih => exact ih kind ha.enter
  | @superclass a name base place methods =>
      refine ⟨ctx.define name, ha.mark name true, ?_⟩
      rw [Part.visits, Stmt.visits]
      exact List.mem_append_left _ (by simp [Use.ofSuperclass])
  | @method a b name superclass methods d u hd h ih =>
      obtain ⟨ctx', hb, hmem⟩ := ih (Context.methodKind d.name) ((ha.mark name true).methods _)
      refine ⟨ctx', hb, ?_⟩
      rw [Part.visits, Stmt.visits]
      exact List.mem_append_right _ (FunctionDecl.mem_visitsAll.mpr ⟨d, hd, hmem⟩)
  | @function a b decl u h ih => exact ih .function (ha.mark decl.name true)
  | @parameters a b name params body u h ih => exact ih kind (ha.inFunction kind params)
  | @initializer a b name init u h ih => exact ih kind (ha.mark name false)
  | expr h ih => exact ih kind ha
  | print h ih => exact ih kind ha
  | value h ih => exact ih kind ha
  | ifCondition h ih | condition h ih | loopCondition h ih =>
      obtain ⟨ctx', hb, hmem⟩ := ih kind ha
      exact ⟨ctx', hb, by simpa [Part.visits, Stmt.visits] using .inl hmem⟩
  | ifBranch h ih | loopBody h ih =>
      obtain ⟨ctx', hb, hmem⟩ := ih kind ha
      exact ⟨ctx', hb, by simpa [Part.visits, Stmt.visits] using .inr hmem⟩
  | thenBranch h ih =>
      obtain ⟨ctx', hb, hmem⟩ := ih kind ha
      exact ⟨ctx', hb, by simpa [Part.visits, Stmt.visits] using .inr (.inl hmem)⟩
  | @elseBranch a b condition thenBranch elseBranch u h ih =>
      obtain ⟨ctx', hb, hmem⟩ := ih kind (ha.after thenBranch)
      exact ⟨ctx', hb, by simpa [Part.visits, Stmt.visits] using .inr (.inr hmem)⟩

/-- A use in a list of statements stands behind those in front of it. -/
theorem Stands.behind {a b : Around} {s : Stmt κ} {ss : List (Stmt κ)} {u : Use κ}
    (h : Stands (a.declare s.declared) (.body ss) b u) : Stands a (.body (s :: ss)) b u := by
  cases h with
  | @body _ _ before after s' _ h =>
      rw [Around.declare_declare] at h
      change Stands a (.body ((s :: before) ++ s' :: after)) b u
      exact .body h

theorem stands_expr {ctx : Context} {a : Around} (ha : ctx.Agrees a) {e : Expr κ}
    {v : Context × Use κ} (hv : v ∈ e.visits ctx) :
    ∃ b, v.1.Agrees b ∧ Stands a (.expr e) b v.2 := by
  obtain ⟨u, hu, rfl⟩ := List.mem_map.mp hv
  exact ⟨a, ha, .use (e.order_perm.mem_iff.mp hu)⟩

end Resolution

mutual

theorem Stmt.stands_of_visits {ctx : Context} {a : Around} (ha : ctx.Agrees a) :
    (s : Stmt κ) → ∀ v ∈ s.visits ctx, ∃ b, v.1.Agrees b ∧ Stands a (.stmt s) b v.2
  | .block body => by
      intro v hv
      obtain ⟨b, hb, hstands⟩ := Stmt.stands_of_visitsAll ha.enter body v hv
      exact ⟨b, hb, .block hstands⟩
  | .class name superclass methods => by
      intro v hv
      rcases List.mem_append.mp hv with hbase | hmethod
      · cases superclass with
        | none => cases hbase
        | some base =>
            obtain rfl := List.mem_singleton.mp hbase
            exact ⟨_, ha.mark name true, .superclass⟩
      · obtain ⟨d, hd, b, hb, hstands⟩ :=
          FunctionDecl.stands_of_visitsAll ((ha.mark name true).methods _) methods v hmethod
        exact ⟨b, hb, .method hd hstands⟩
  | .expr e => by
      intro v hv
      obtain ⟨b, hb, hstands⟩ := stands_expr ha hv
      exact ⟨b, hb, .expr hstands⟩
  | .function decl => by
      intro v hv
      obtain ⟨b, hb, hstands⟩ := decl.stands_of_visits (ha.mark decl.name true) .function v hv
      exact ⟨b, hb, .function hstands⟩
  | .ifThen condition thenBranch => by
      intro v hv
      rcases List.mem_append.mp hv with hcondition | hthen
      · obtain ⟨b, hb, hstands⟩ := stands_expr ha hcondition
        exact ⟨b, hb, .ifCondition hstands⟩
      · obtain ⟨b, hb, hstands⟩ := thenBranch.stands_of_visits ha v hthen
        exact ⟨b, hb, .ifBranch hstands⟩
  | .ifElse condition thenBranch elseBranch => by
      intro v hv
      rcases List.mem_append.mp hv with hv | helse
      · rcases List.mem_append.mp hv with hcondition | hthen
        · obtain ⟨b, hb, hstands⟩ := stands_expr ha hcondition
          exact ⟨b, hb, .condition hstands⟩
        · obtain ⟨b, hb, hstands⟩ := thenBranch.stands_of_visits ha v hthen
          exact ⟨b, hb, .thenBranch hstands⟩
      · obtain ⟨b, hb, hstands⟩ := elseBranch.stands_of_visits (ha.after thenBranch) v helse
        exact ⟨b, hb, .elseBranch hstands⟩
  | .print e => by
      intro v hv
      obtain ⟨b, hb, hstands⟩ := stands_expr ha hv
      exact ⟨b, hb, .print hstands⟩
  | .return keyword value => by
      intro v hv
      cases value with
      | none => cases hv
      | some value =>
          obtain ⟨b, hb, hstands⟩ := stands_expr ha hv
          exact ⟨b, hb, .value hstands⟩
  | .var name init => by
      intro v hv
      cases init with
      | none => cases hv
      | some init =>
          obtain ⟨b, hb, hstands⟩ := stands_expr (ha.mark name false) hv
          exact ⟨b, hb, .initializer hstands⟩
  | .while condition body => by
      intro v hv
      rcases List.mem_append.mp hv with hcondition | hbody
      · obtain ⟨b, hb, hstands⟩ := stands_expr ha hcondition
        exact ⟨b, hb, .loopCondition hstands⟩
      · obtain ⟨b, hb, hstands⟩ := body.stands_of_visits ha v hbody
        exact ⟨b, hb, .loopBody hstands⟩

theorem Stmt.stands_of_visitsAll {ctx : Context} {a : Around} (ha : ctx.Agrees a) :
    (ss : List (Stmt κ)) → ∀ v ∈ Stmt.visitsAll ctx ss,
      ∃ b, v.1.Agrees b ∧ Stands a (.body ss) b v.2
  | [] => by
      intro v hv
      cases hv
  | s :: ss => by
      intro v hv
      rcases List.mem_append.mp hv with hfirst | hlater
      · obtain ⟨b, hb, hstands⟩ := s.stands_of_visits ha v hfirst
        rw [← a.declare_nil] at hstands
        refine ⟨b, hb, ?_⟩
        change Stands a (.body ([] ++ s :: ss)) b v.2
        exact .body hstands
      · obtain ⟨b, hb, hstands⟩ := Stmt.stands_of_visitsAll (ha.after s) ss v hlater
        exact ⟨b, hb, hstands.behind⟩

theorem FunctionDecl.stands_of_visits {ctx : Context} {a : Around} (ha : ctx.Agrees a)
    (kind : FunctionKind) :
    (d : FunctionDecl κ) → ∀ v ∈ d.visits ctx kind,
      ∃ b, v.1.Agrees b ∧ Stands a (.function d) b v.2
  | ⟨name, params, body⟩ => by
      intro v hv
      obtain ⟨b, hb, hstands⟩ := Stmt.stands_of_visitsAll (ha.inFunction kind params) body v hv
      exact ⟨b, hb, .parameters hstands⟩

theorem FunctionDecl.stands_of_visitsAll {ctx : Context} {a : Around} (ha : ctx.Agrees a) :
    (ds : List (FunctionDecl κ)) → ∀ v ∈ FunctionDecl.visitsAll ctx ds,
      ∃ d ∈ ds, ∃ b, v.1.Agrees b ∧ Stands a (.function d) b v.2
  | [] => by
      intro v hv
      cases hv
  | d :: ds => by
      intro v hv
      rcases List.mem_append.mp hv with hfirst | hlater
      · exact ⟨d, List.mem_cons_self, d.stands_of_visits ha _ v hfirst⟩
      · obtain ⟨other, hother, hstands⟩ := FunctionDecl.stands_of_visitsAll ha ds v hlater
        exact ⟨other, List.mem_cons_of_mem _ hother, hstands⟩

end

end Lox
