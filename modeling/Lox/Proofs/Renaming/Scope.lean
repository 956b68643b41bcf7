import Mathlib.Data.List.Pairwise
import Lox.Proofs.Renaming.Fresh

/-!
# The scope of the variable

A checked scope declares each name once. If it declares a variable, it does not declare a function
or a class of that name as well, so to rename the variable respells all that the name stands for.
-/

namespace Lox

open Resolution

/-! ### A checked scope declares each name once -/

theorem Stmt.paramFaults_declared (ctx : Context) : (s : Stmt Unit) → s.faults ctx = [] →
    paramFaults ctx s.declared = []
  | .block body, _ => rfl
  | .class name superclass methods, h => by
      simp only [Stmt.faults, List.append_eq_nil_iff] at h
      simp [Stmt.declared, paramFaults, h.1.1]
  | .expr e, _ => rfl
  | .function decl, h => by
      simp only [Stmt.faults, List.append_eq_nil_iff] at h
      simp [Stmt.declared, paramFaults, h.1]
  | .ifThen condition thenBranch, h => by
      simp only [Stmt.faults, List.append_eq_nil_iff] at h
      exact thenBranch.paramFaults_declared ctx h.2
  | .ifElse condition thenBranch elseBranch, h => by
      simp only [Stmt.faults, List.append_eq_nil_iff] at h
      have hthen := thenBranch.paramFaults_declared ctx h.1.2
      have helse := elseBranch.paramFaults_declared _ h.2
      rw [after_eq_foldl] at helse
      rw [Stmt.declared, paramFaults_append, hthen, helse]
      rfl
  | .print e, _ => rfl
  | .return keyword value, _ => rfl
  | .var name init, h => by
      simp only [Stmt.faults, List.append_eq_nil_iff] at h
      simp [Stmt.declared, paramFaults, h.1]
  | .while condition body, h => by
      simp only [Stmt.faults, List.append_eq_nil_iff] at h
      exact body.paramFaults_declared ctx h.2

theorem Stmt.paramFaults_declaredAll (ctx : Context) (ss : List (Stmt Unit))
    (h : Stmt.faultsAll ctx ss = []) : paramFaults ctx (Stmt.declaredAll ss) = [] := by
  induction ss generalizing ctx with
  | nil => rfl
  | cons s ss ih =>
      rw [Stmt.faultsAll, List.append_eq_nil_iff] at h
      have hs := s.paramFaults_declared ctx h.1
      have hss := ih _ h.2
      rw [after_eq_foldl] at hss
      rw [Stmt.declaredAll, List.flatMap_cons, paramFaults_append, hs]
      exact hss

theorem Resolution.nodup_of_paramFaults (ctx : Context) {names : List Token}
    (h : paramFaults (ctx.enter []) names = []) : (names.map Token.lexeme).Nodup := by
  have hnone : repeated [] names = [] := by
    rwa [← broken_scope ctx [] names, broken, List.map_eq_nil_iff] at h
  exact ((repeated_eq_nil_iff [] names).mp hnone).2

theorem Stmt.nodup_block {ctx : Context} {body : List (Stmt Unit)}
    (h : (Stmt.block body).faults ctx = []) :
    ((Stmt.declaredAll body).map Token.lexeme).Nodup :=
  nodup_of_paramFaults ctx (Stmt.paramFaults_declaredAll _ body h)

theorem FunctionDecl.nodup_scope {ctx : Context} {kind : FunctionKind} {d : FunctionDecl Unit}
    (h : d.faults ctx kind = []) :
    ((d.params ++ Stmt.declaredAll d.body).map Token.lexeme).Nodup := by
  obtain ⟨name, params, body⟩ := d
  rw [FunctionDecl.faults, List.append_eq_nil_iff] at h
  have hbody := Stmt.paramFaults_declaredAll _ body h.2
  refine nodup_of_paramFaults { ctx with function := kind } ?_
  rw [paramFaults_append]
  exact List.append_eq_nil_iff.mpr ⟨h.1, hbody⟩

/-! ### The variable is all that its name stands for -/

section

variable {r : Renaming} {params : List Token} {body : List (Stmt Unit)}

theorem Stmt.kept_of_declares (hnodup : ((params ++ Stmt.declaredAll body).map Token.lexeme).Nodup)
    (h : DeclaresVariable r.old params body) (marks : List Bool) : ∀ s ∈ body, s.Kept r marks := by
  intro s hs _ t ht hold
  rw [List.map_append, List.nodup_append] at hnodup
  obtain ⟨-, hbody, hapart⟩ := hnodup
  rcases h with ⟨param, hparam, hname⟩ | ⟨token, init, hvar, hname⟩
  · have hmem : t.lexeme ∈ (Stmt.declaredAll body).map Token.lexeme :=
      List.mem_map_of_mem (List.mem_flatMap.mpr ⟨s, hs, ht⟩)
    exact absurd (hname.trans hold.symm) (hapart _ (List.mem_map_of_mem hparam) _ hmem)
  · by_cases hsame : s = .var token init
    · subst hsame
      rw [Stmt.declared, List.mem_singleton] at ht
      exact ⟨init, by rw [ht]⟩
    · rw [Stmt.declaredAll, List.map_flatMap, List.nodup_flatMap] at hbody
      have hsymm : Std.Symm (Function.onFun List.Disjoint fun s : Stmt Unit =>
          s.declared.map Token.lexeme) := ⟨fun _ _ h _ hb ha => h ha hb⟩
      have hdisjoint := hbody.2.forall hs hvar hsame
      refine (hdisjoint (List.mem_map_of_mem ht) ?_).elim
      rw [hold, ← hname]
      exact List.mem_cons_self

/-- The walk keeps the declarations of variables where they are. -/
theorem Stmt.var_mem_of_resolveAll {ctx : Context} {token : Token} {init : Option (Expr Site)}
    (h : .var token init ∈ Stmt.resolveAll ctx body) : ∃ init, .var token init ∈ body := by
  induction body generalizing ctx with
  | nil => cases h
  | cons s ss ih =>
      rw [Stmt.resolveAll] at h
      rcases List.mem_cons.mp h with heq | hmem
      · cases s <;> rw [Stmt.resolve] at heq <;> cases heq
        exact ⟨_, List.mem_cons_self⟩
      · obtain ⟨init, hinit⟩ := ih hmem
        exact ⟨init, List.mem_cons_of_mem s hinit⟩

theorem declaresVariable_of_resolveAll {ctx : Context} {name : Bytes}
    (h : DeclaresVariable name params (Stmt.resolveAll ctx body)) :
    DeclaresVariable name params body := by
  rcases h with hparam | ⟨token, init, hvar, hname⟩
  · exact .inl hparam
  · obtain ⟨init, hinit⟩ := Stmt.var_mem_of_resolveAll hvar
    exact .inr ⟨token, init, hinit, hname⟩

end

/-! ### Renaming one variable -/

section

variable {r : Renaming}

theorem Stmt.respelled_self (ctx : Context) {marks : List Bool} (hmarks : Unmarked marks)
    (s : Stmt Unit) (h : r.Avoids s.uses s.binders) :
    (s.resolve ctx).Respelled r.bound marks (s.resolve ctx) := by
  have hkept : s.Kept r marks := fun hmarked => by simp [hmarks (some 0)] at hmarked
  have hrename := s.respelled_rename ctx marks h hkept
  rwa [Stmt.rename_of_unmarked hmarks] at hrename

theorem Stmt.respelledAll_self (ctx : Context) {marks : List Bool} (hmarks : Unmarked marks)
    (ss : List (Stmt Unit)) (h : r.Avoids (Stmt.usesAll ss) (Stmt.bindersAll ss)) :
    Stmt.RespelledAll r.bound marks (Stmt.resolveAll ctx ss) (Stmt.resolveAll ctx ss) := by
  have hkept (s : Stmt Unit) : s.Kept r marks := fun hmarked => by
    simp [hmarks (some 0)] at hmarked
  have hrename := Stmt.respelled_renameAll ctx marks ss h fun s _ => hkept s
  rwa [Stmt.renameAll_of_unmarked hmarks] at hrename

theorem FunctionDecl.respelled_self (ctx : Context) (kind : FunctionKind) {marks : List Bool}
    (hmarks : Unmarked marks) (d : FunctionDecl Unit) (h : r.Avoids d.uses d.binders) :
    (d.resolve ctx kind).Respelled r.bound marks (d.resolve ctx kind) := by
  have hrename := d.respelled_rename ctx kind marks false h fun s _ => s.kept_inside marks
  rwa [FunctionDecl.rename_of_unmarked hmarks.cons] at hrename

theorem FunctionDecl.respelledAll_self (ctx : Context) {marks : List Bool}
    (hmarks : Unmarked marks) (ds : List (FunctionDecl Unit))
    (h : r.Avoids (FunctionDecl.usesAll ds) (FunctionDecl.bindersAll ds)) :
    FunctionDecl.RespelledAll r.bound marks (FunctionDecl.resolveMethods ctx ds)
      (FunctionDecl.resolveMethods ctx ds) := by
  have hrename := FunctionDecl.respelled_renameAll ctx marks ds h
  rwa [FunctionDecl.renameAll_of_unmarked hmarks] at hrename

theorem Expr.respelled_self (ctx : Context) {marks : List Bool} (hmarks : Unmarked marks)
    (e : Expr Unit) (h : ∀ u ∈ e.uses, r.Admits u) :
    (e.resolve ctx).Respelled r.bound marks (e.resolve ctx) := by
  have hrename := e.respelled_rename ctx marks h
  rwa [Expr.rename_of_unmarked hmarks] at hrename

mutual

theorem Stmt.respelled_of_renames {ctx : Context} {marks : List Bool} (hmarks : Unmarked marks) :
    (s : Stmt Unit) → r.Avoids s.uses s.binders → s.faults ctx = [] → {s' : Stmt Site} →
    (s.resolve ctx).Renames r marks s' → (s.resolve ctx).Respelled r.bound marks s'
  | .block body, havoids, hnone, s', h => by
      rw [Stmt.resolve] at h ⊢
      cases h with
      | scope hdeclares =>
          refine .block (Stmt.respelled_renameAll _ _ body havoids ?_)
          exact Stmt.kept_of_declares (Stmt.nodup_block hnone)
            (declaresVariable_of_resolveAll hdeclares) _
      | block hbody =>
          exact .block (Stmt.respelledAll_of_renames hmarks.cons body havoids hnone hbody)
  | .class name superclass methods, havoids, hnone, s', h => by
      have hself := Stmt.respelled_self ctx hmarks (.class name superclass methods) havoids
      rw [Stmt.binders, ← List.singleton_append, Stmt.uses, Renaming.avoids_append] at havoids
      simp only [Stmt.faults, List.append_eq_nil_iff] at hnone
      rw [Stmt.resolve] at h hself ⊢
      cases h with
      | «class» hmethods =>
          cases hself with
          | «class» hname hsuperclass _ =>
              refine .class hname hsuperclass ?_
              rw [Option.isSome_map] at hmethods ⊢
              exact FunctionDecl.respelledAll_of_renames (hmarks.methodMarks _) methods havoids.2
                hnone.2 hmethods
  | .expr e, _, _, s', h => by
      rw [Stmt.resolve] at h
      cases h
  | .function decl, havoids, hnone, s', h => by
      have hself := Stmt.respelled_self ctx hmarks (.function decl) havoids
      rw [Stmt.binders, ← List.singleton_append, Stmt.uses, ← List.nil_append decl.uses,
        Renaming.avoids_append] at havoids
      simp only [Stmt.faults, List.append_eq_nil_iff] at hnone
      rw [Stmt.resolve] at h hself ⊢
      cases h with
      | function hdecl =>
          cases hself with
          | function hname _ =>
              exact .function hname
                (FunctionDecl.respelled_of_renames hmarks decl havoids.2 hnone.2 hdecl)
  | .ifThen condition thenBranch, havoids, hnone, s', h => by
      rw [Stmt.binders, ← List.nil_append thenBranch.binders, Stmt.uses,
        Renaming.avoids_append] at havoids
      simp only [Stmt.faults, List.append_eq_nil_iff] at hnone
      rw [Stmt.resolve] at h ⊢
      cases h with
      | ifThen hyes =>
          exact .ifThen (Expr.respelled_self ctx hmarks condition havoids.1.uses)
            (Stmt.respelled_of_renames hmarks thenBranch havoids.2 hnone.2 hyes)
  | .ifElse condition thenBranch elseBranch, havoids, hnone, s', h => by
      rw [Stmt.binders, Stmt.uses, Renaming.avoids_append] at havoids
      obtain ⟨hthen, helse⟩ := havoids
      rw [← List.nil_append thenBranch.binders, Renaming.avoids_append] at hthen
      simp only [Stmt.faults, List.append_eq_nil_iff] at hnone
      have hcondition := Expr.respelled_self ctx hmarks condition hthen.1.uses
      rw [Stmt.resolve] at h ⊢
      cases h with
      | thenBranch hyes =>
          exact .ifElse hcondition
            (Stmt.respelled_of_renames hmarks thenBranch hthen.2 hnone.1.2 hyes)
            (Stmt.respelled_self _ hmarks elseBranch helse)
      | elseBranch hno =>
          exact .ifElse hcondition (Stmt.respelled_self _ hmarks thenBranch hthen.2)
            (Stmt.respelled_of_renames hmarks elseBranch helse hnone.2 hno)
  | .print e, _, _, s', h => by
      rw [Stmt.resolve] at h
      cases h
  | .return keyword value, _, _, s', h => by
      rw [Stmt.resolve] at h
      cases h
  | .var name init, _, _, s', h => by
      rw [Stmt.resolve] at h
      cases h
  | .while condition body, havoids, hnone, s', h => by
      rw [Stmt.binders, ← List.nil_append body.binders, Stmt.uses,
        Renaming.avoids_append] at havoids
      simp only [Stmt.faults, List.append_eq_nil_iff] at hnone
      rw [Stmt.resolve] at h ⊢
      cases h with
      | «while» hbody =>
          exact .while (Expr.respelled_self ctx hmarks condition havoids.1.uses)
            (Stmt.respelled_of_renames hmarks body havoids.2 hnone.2 hbody)

theorem Stmt.respelledAll_of_renames {ctx : Context} {marks : List Bool} (hmarks : Unmarked marks) :
    (ss : List (Stmt Unit)) → r.Avoids (Stmt.usesAll ss) (Stmt.bindersAll ss) →
    Stmt.faultsAll ctx ss = [] → {ss' : List (Stmt Site)} →
    Stmt.RenamesAll r marks (Stmt.resolveAll ctx ss) ss' →
    Stmt.RespelledAll r.bound marks (Stmt.resolveAll ctx ss) ss'
  | [], _, _, ss', h => by cases h
  | s :: ss, havoids, hnone, ss', h => by
      rw [Stmt.usesAll, Stmt.bindersAll, Renaming.avoids_append] at havoids
      rw [Stmt.faultsAll, List.append_eq_nil_iff] at hnone
      rw [Stmt.resolveAll] at h ⊢
      cases h with
      | head hs =>
          exact .cons (Stmt.respelled_of_renames hmarks s havoids.1 hnone.1 hs)
            (Stmt.respelledAll_self _ hmarks ss havoids.2)
      | tail hss =>
          exact .cons (Stmt.respelled_self ctx hmarks s havoids.1)
            (Stmt.respelledAll_of_renames hmarks ss havoids.2 hnone.2 hss)

theorem FunctionDecl.respelled_of_renames {ctx : Context} {kind : FunctionKind} {marks : List Bool}
    (hmarks : Unmarked marks) : (d : FunctionDecl Unit) → r.Avoids d.uses d.binders →
    d.faults ctx kind = [] → {d' : FunctionDecl Site} →
    (d.resolve ctx kind).Renames r marks d' → (d.resolve ctx kind).Respelled r.bound marks d'
  | ⟨name, params, body⟩, havoids, hnone, d', h => by
      rw [FunctionDecl.resolve] at h ⊢
      cases h with
      | scope hdeclares =>
          refine FunctionDecl.respelled_rename ctx kind marks true ⟨name, params, body⟩ havoids ?_
          exact Stmt.kept_of_declares (FunctionDecl.nodup_scope hnone)
            (declaresVariable_of_resolveAll hdeclares) _
      | body hbody =>
          rw [FunctionDecl.binders, FunctionDecl.uses, ← List.nil_append (Stmt.usesAll body),
            Renaming.avoids_append] at havoids
          rw [FunctionDecl.faults, List.append_eq_nil_iff] at hnone
          have hparams : List.Forall₂ (r.bound.binder (false :: marks)) params params :=
            List.forall₂_same.mpr fun t ht =>
              Renaming.bound_binder_self (havoids.1.binders t ht) fun hmarked => nomatch hmarked
          exact .mk hparams
            (Stmt.respelledAll_of_renames hmarks.cons body havoids.2 hnone.2 hbody)

theorem FunctionDecl.respelledAll_of_renames {ctx : Context} {marks : List Bool}
    (hmarks : Unmarked marks) : (ds : List (FunctionDecl Unit)) →
    r.Avoids (FunctionDecl.usesAll ds) (FunctionDecl.bindersAll ds) →
    FunctionDecl.faultsAll ctx ds = [] → {ds' : List (FunctionDecl Site)} →
    FunctionDecl.RenamesAll r marks (FunctionDecl.resolveMethods ctx ds) ds' →
    FunctionDecl.RespelledAll r.bound marks (FunctionDecl.resolveMethods ctx ds) ds'
  | [], _, _, ds', h => by cases h
  | d :: ds, havoids, hnone, ds', h => by
      rw [FunctionDecl.usesAll, FunctionDecl.bindersAll, Renaming.avoids_append] at havoids
      rw [FunctionDecl.faultsAll, List.append_eq_nil_iff] at hnone
      rw [FunctionDecl.resolveMethods] at h ⊢
      cases h with
      | head hd =>
          exact .cons (FunctionDecl.respelled_of_renames hmarks d havoids.1 hnone.1 hd)
            (FunctionDecl.respelledAll_self _ hmarks ds havoids.2)
      | tail hds =>
          exact .cons (FunctionDecl.respelled_self ctx _ hmarks d havoids.1)
            (FunctionDecl.respelledAll_of_renames hmarks ds havoids.2 hnone.2 hds)

end

/-- To rename a local variable of a checked program respells its bound tree. -/
theorem respelled_of_renamesLocal {u : List Token} {program : List (Stmt Unit)}
    (hderives : Grammar.NearestProgram u program) (hfresh : ∀ t ∈ u, r.Fresh t)
    (hnone : staticErrors program = []) {renamed : List (Stmt Site)}
    (h : RenamesLocal r (resolve program) renamed) :
    Stmt.RespelledAll r.bound [] (resolve program) renamed :=
  Stmt.respelledAll_of_renames unmarked_nil program (hderives.avoids hfresh) hnone h

end

end Lox
