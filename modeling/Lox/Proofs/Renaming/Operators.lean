import Lox.Proofs.Renaming.Store

/-!
# Steps of evaluation with a variable renamed

In states that differ by the renaming, each step that evaluates nothing further ends in the same way:
with the same value, or with the same error, whose token may be respelled.
-/

namespace Lox

open Resolution Eval

/-- What a computation leaves of a state: scopes were created, and the scope at hand is the same. -/
structure State.Later (σ : State) (φ : ScopeMarks) (σ₁ : State) (φ₁ : ScopeMarks) : Prop where
  scopes : σ.scopes.Later φ σ₁.scopes φ₁
  env : σ₁.env = σ.env

theorem State.Later.refl (σ : State) (φ : ScopeMarks) : State.Later σ φ σ φ :=
  ⟨.refl σ.scopes φ, rfl⟩

theorem State.Later.trans {σ σ₁ σ₂ : State} {φ φ₁ φ₂ : ScopeMarks} (h : State.Later σ φ σ₁ φ₁)
    (h' : State.Later σ₁ φ₁ σ₂ φ₂) : State.Later σ φ σ₂ φ₂ :=
  ⟨h.scopes.trans h'.scopes, h'.env.trans h.env⟩

/-- The scope at hand is marked as before. -/
theorem State.Later.at_env {r : Renaming} {σ σ' σ₁ : State} {φ φ₁ : ScopeMarks}
    (h : State.Later σ φ σ₁ φ₁) (hσ : σ.Renamed r φ σ') {marks : List Bool}
    (hat : σ.scopes.At φ marks σ.env) : σ₁.scopes.At φ₁ marks σ₁.env := by
  rw [h.env]
  exact hat.later h.scopes hσ.scopes.older

/-- Two computations from states that differ by the renaming end in the same way. -/
inductive Outcome.Renamed (r : Renaming) (φ : ScopeMarks) (σ : State) {α : Type} :
    Outcome α → Outcome α → Prop where
  | ok {a : α} {φ₁ : ScopeMarks} {σ₁ σ₁' : State} (hlater : σ.Later φ σ₁ φ₁)
      (h : σ₁.Renamed r φ₁ σ₁') : Outcome.Renamed r φ σ (.ok a σ₁) (.ok a σ₁')
  | error {t t' : Token} {cause : RuntimeError.Cause} {σ₁ σ₁' : State} (ht : r.Respells t t')
      (hprinted : σ₁'.printed = σ₁.printed) :
      Outcome.Renamed r φ σ (.error ⟨t, cause⟩ σ₁) (.error ⟨t', cause⟩ σ₁')
  | broken {σ₁ σ₁' : State} : Outcome.Renamed r φ σ (.broken σ₁) (.broken σ₁')
  | outOfFuel : Outcome.Renamed r φ σ .outOfFuel .outOfFuel

section

variable {r : Renaming} {φ φ₁ : ScopeMarks} {σ σ' σ₁ : State} {α β : Type}

/-- A computation that was set off in a later state. -/
theorem Outcome.Renamed.after {o o' : Outcome α} (h : o.Renamed r φ₁ σ₁ o')
    (hlater : σ.Later φ σ₁ φ₁) : o.Renamed r φ σ o' := by
  cases h with
  | ok hlater' hσ₂ => exact .ok (hlater.trans hlater') hσ₂
  | error ht hprinted => exact .error ht hprinted
  | broken => exact .broken
  | outOfFuel => exact .outOfFuel

theorem Outcome.Renamed.bind {o o' : Outcome α} (h : o.Renamed r φ σ o')
    {f f' : α → State → Outcome β}
    (hf : ∀ a φ₁ σ₁ σ₁', σ.Later φ σ₁ φ₁ → σ₁.Renamed r φ₁ σ₁' →
      (f a σ₁).Renamed r φ₁ σ₁ (f' a σ₁')) :
    (o.bind f).Renamed r φ σ (o'.bind f') := by
  cases h with
  | ok hlater hσ₁ => exact (hf _ _ _ _ hlater hσ₁).after hlater
  | error ht hprinted => exact .error ht hprinted
  | broken => exact .broken
  | outOfFuel => exact .outOfFuel

/-- A computation that was set off in another state, and what is done when it is left. -/
theorem Outcome.Renamed.leaving {o o' : Outcome α} (h : o.Renamed r φ₁ σ₁ o') {g g' : State → State}
    (hg : ∀ φ₂ σ₂ σ₂', σ₁.Later φ₁ σ₂ φ₂ → σ₂.Renamed r φ₂ σ₂' →
      σ.Later φ (g σ₂) φ₂ ∧ (g σ₂).Renamed r φ₂ (g' σ₂'))
    (hprinted : ∀ σ, (g σ).printed = σ.printed) (hprinted' : ∀ σ, (g' σ).printed = σ.printed) :
    (o.leaving g).Renamed r φ σ (o'.leaving g') := by
  cases h with
  | ok hlater hσ₂ =>
      obtain ⟨hafter, hrenamed⟩ := hg _ _ _ hlater hσ₂
      exact .ok hafter hrenamed
  | error ht hsame =>
      refine .error ht ?_
      rw [hprinted, hprinted', hsame]
  | broken => exact .broken
  | outOfFuel => exact .outOfFuel

theorem State.Renamed.ok (h : σ.Renamed r φ σ') (a : α) :
    Outcome.Renamed r φ σ (.ok a σ) (.ok a σ') :=
  .ok (.refl σ φ) h

theorem State.Renamed.fail (h : σ.Renamed r φ σ') (t : Token) (cause : RuntimeError.Cause) :
    Outcome.Renamed r φ σ (fail t cause σ : Outcome α) (fail t cause σ') :=
  .error (.inl rfl) h.printed

theorem State.Renamed.ok_define (h : σ.Renamed r φ σ') (a : α) (id : ScopeId) {n n' : Bytes}
    (hn : n' = r.name (φ id) n) (v : Value) :
    Outcome.Renamed r φ σ (.ok a (σ.define id n v)) (.ok a (σ'.define id n' v)) :=
  .ok ⟨Scopes.later_define σ.scopes φ id n v, rfl⟩ (h.define id hn v)

end

variable {r : Renaming} {φ : ScopeMarks} {σ σ' : State}

namespace Eval

/-! ### Variables -/

/-- A use is looked up under the name that it has in the scope that it is bound to. -/
theorem name_ancestor {marks : List Bool} {id scope : ScopeId} {d : Nat} {t t' : Token}
    (hat : σ.scopes.At φ marks id) (ht : r.bound.use marks (some d) t t')
    (hscope : σ.scopes.ancestor? id d = some scope) : t'.lexeme = r.name (φ scope) t.lexeme := by
  obtain ⟨hnew, rfl⟩ := ht
  rw [hat.marks d scope hscope]
  exact Renaming.lexeme_token hnew _

theorem use_global {marks : List Bool} {t t' : Token} (ht : r.bound.use marks none t t') :
    t' = t :=
  ht.2.trans (Renaming.token_false t)

theorem read_renamed (h : σ.Renamed r φ σ') {marks : List Bool} (hat : σ.scopes.At φ marks σ.env)
    {t t' : Token} {site : Site} (ht : r.bound.use marks site t t') :
    (read t site σ).Renamed r φ σ (read t' site σ') := by
  cases site with
  | none =>
      rw [use_global ht]
      simp only [Eval.read, h.scopes.get?_globals]
      cases σ.scopes.get? State.globals t.lexeme with
      | some v => exact h.ok v
      | none => exact .error (.inl rfl) h.printed
  | some d =>
      simp only [Eval.read, Scopes.getAt?, h.env, h.scopes.ancestor?]
      cases hscope : σ.scopes.ancestor? σ.env d with
      | none => exact .broken
      | some scope =>
          dsimp only
          rw [name_ancestor hat ht hscope, h.scopes.bound]
          exact h.ok _

theorem assign_renamed (h : σ.Renamed r φ σ') {marks : List Bool}
    (hat : σ.scopes.At φ marks σ.env) {t t' : Token} {site : Site}
    (ht : r.bound.use marks site t t') (v : Value) :
    (assign t site v σ).Renamed r φ σ (assign t' site v σ') := by
  cases site with
  | none =>
      rw [use_global ht]
      simp only [assign, assignGlobal, Scopes.assign?_eq_map, h.scopes.holder?_globals,
        Scopes.holder?_globals_eq σ.scopes]
      by_cases hbound : (σ.scopes.bound? State.globals t.lexeme).isSome
      · rw [if_pos hbound]
        refine h.ok_define v State.globals ?_ v
        rw [h.scopes.globals]
        rfl
      · rw [if_neg hbound]
        exact .error (.inl rfl) h.printed
  | some d =>
      have hsame : σ'.scopes.ancestor? σ'.env d = σ.scopes.ancestor? σ.env d := by
        rw [h.env, h.scopes.ancestor?]
      simp only [assign, Scopes.assignAt?_eq_map, hsame]
      cases hscope : σ.scopes.ancestor? σ.env d with
      | none => exact .broken
      | some scope => exact h.ok_define v scope (name_ancestor hat ht hscope) v

/-! ### Methods -/

/-- A scope that binds a keyword alone is the same whether it is marked or not. -/
theorem lookup_fixed {k : Bytes} (hk : ∀ isMarked, r.name isMarked k = k) (v : Value)
    (isMarked : Bool) (n : Bytes) :
    List.lookup (r.name isMarked n) [(k, v)] = List.lookup n [(k, v)] := by
  rw [List.lookup_cons, List.lookup_cons]
  by_cases hn : n = k
  · rw [hn, hk]
  · have hne : r.name isMarked n ≠ k := by
      intro heq
      rw [← hk isMarked] at heq
      exact hn ((r.name isMarked).injective heq)
    rw [beq_eq_false_iff_ne.mpr hn, beq_eq_false_iff_ne.mpr hne]
    rfl

/-- A method that is bound to its receiver is closed in the scope of `this`, which is not marked. -/
theorem bindMethod_renamed (h : σ.Renamed r φ σ') {f f' : Function}
    (hf : f.Renamed r σ.scopes φ [false] f') (receiver : ObjectId) :
    ∃ φ₁, σ.Later φ (σ.bindMethod f receiver).2 φ₁ ∧
      (σ.bindMethod f receiver).2.Renamed r φ₁ (σ'.bindMethod f' receiver).2 ∧
      (σ.bindMethod f receiver).1.Renamed r (σ.bindMethod f receiver).2.scopes φ₁ []
        (σ'.bindMethod f' receiver).1 := by
  obtain ⟨marks, hat, hcode⟩ := hf.code
  refine ⟨State.Renamed.marking σ φ false, ⟨?_, rfl⟩, ?_, ?_, hf.isInitializer, false :: marks,
    ?_, ?_⟩
  · exact Scopes.later_push σ.scopes φ (some f.closure) _ false
  · have hscope := h.newScope hat.inside false
      (lookup_fixed Renaming.name_thisName (.object receiver) false)
    simpa only [State.bindMethod, hf.closure] using hscope
  · exact h.scopes.next
  · exact hat.push h.scopes.older _ false
  · exact hcode

theorem boundMethod_renamed (h : σ.Renamed r φ σ') {f f' : Function}
    (hf : f.Renamed r σ.scopes φ [false] f') (receiver : ObjectId) :
    Outcome.Renamed r φ σ (.ok (σ.boundMethod f receiver).1 (σ.boundMethod f receiver).2)
      (.ok (σ'.boundMethod f' receiver).1 (σ'.boundMethod f' receiver).2) := by
  obtain ⟨φ₁, hlater, hstate, hbound⟩ := bindMethod_renamed h hf receiver
  obtain ⟨hid, hadded⟩ := hstate.newFunction hbound
  have hvalue : (σ'.boundMethod f' receiver).1 = (σ.boundMethod f receiver).1 :=
    congrArg Value.function hid
  rw [hvalue]
  exact .ok ⟨hlater.scopes, hlater.env⟩ hadded

end Eval

theorem State.Renamed.lockstep (h : σ.Renamed r φ σ') :
    Lockstep (Function.Renamed r σ.scopes φ []) (Method.Renamed r σ.scopes φ)
      (Outcome.Renamed r φ σ) σ σ' where
  toSideBySide := h.toSideBySide
  ok v := h.ok v
  fail t cause := h.fail t cause
  broken := .broken
  bound receiver _ _ hf := boundMethod_renamed h hf receiver
  ticked _ _ := .ok ⟨.refl σ.scopes φ, rfl⟩ { h with clock := rfl }

namespace Eval

theorem super_renamed (h : σ.Renamed r φ σ') (site : Site) (method : Token) :
    (super site method σ).Renamed r φ σ (super site method σ') := by
  refine h.lockstep.super ?_ ?_ method
  · rw [h.env, h.scopes.getAt?_of_fixed _ _ Renaming.name_superName]
  · rw [h.env, h.scopes.getAt?_of_fixed _ _ Renaming.name_thisName]

/-! ### Calls -/

theorem refusal?_renamed (h : σ.Renamed r φ σ') (callee : Value) (given : Nat) :
    refusal? callee given σ' = refusal? callee given σ :=
  h.toSideBySide.refusal? Function.Renamed.sameSignature Function.Renamed.sameSignature callee given

/-- Arguments are bound to the parameters as they are spelled. -/
theorem parameters_renamed {marks : List Bool} {isMarked : Bool} {f f' : Function}
    (hparams : List.Forall₂ (r.bound.binder (isMarked :: marks)) f.decl.params f'.decl.params)
    (arguments : List Value) (n : Bytes) :
    (parameters f' arguments).lookup (r.name isMarked n) = (parameters f arguments).lookup n := by
  have hfold (params params' : List Token)
      (hparams : List.Forall₂ (r.bound.binder (isMarked :: marks)) params params')
      (arguments : List Value) (bindings bindings' : Bindings Value)
      (h : ∀ n, bindings'.lookup (r.name isMarked n) = bindings.lookup n) (n : Bytes) :
      ((params'.zip arguments).foldl (fun bindings entry =>
        Bindings.insert entry.1.lexeme entry.2 bindings) bindings').lookup (r.name isMarked n) =
      ((params.zip arguments).foldl (fun bindings entry =>
        Bindings.insert entry.1.lexeme entry.2 bindings) bindings).lookup n := by
    induction hparams generalizing arguments bindings bindings' with
    | nil => exact h n
    | @cons param param' _ _ hparam _ ih =>
        cases arguments with
        | nil => exact h n
        | cons v arguments =>
            refine ih arguments _ _ fun other => ?_
            obtain ⟨hnew, rfl⟩ := hparam
            have hname : (r.binder (isMarked :: marks) param).lexeme =
                r.name isMarked param.lexeme := Renaming.lexeme_token hnew _
            dsimp only
            rw [hname, Bindings.lookup_insert, Bindings.lookup_insert, h]
            exact if_congr (r.name isMarked).injective.eq_iff rfl rfl
  exact hfold _ _ hparams arguments [] [] (fun _ => rfl) n

theorem result_renamed (h : σ.Renamed r φ σ') {f f' : Function} (hclosure : f'.closure = f.closure)
    (hinitializer : f'.isInitializer = f.isInitializer) (c : Completion) :
    (result f c σ).Renamed r φ σ (result f' c σ') := by
  simp only [result, hclosure, hinitializer,
    h.scopes.getAt?_of_fixed _ _ Renaming.name_thisName]
  split
  · split
    · exact h.ok _
    · exact .broken
  · split
    · exact h.ok _
    · exact h.ok _

/-! ### Classes -/

theorem methodTable_renamed {scopes : Scopes} {marks : List Bool} {closure : ScopeId}
    (hat : scopes.At φ marks closure) {methods methods' : List (FunctionDecl Site)}
    (h : FunctionDecl.RespelledAll r.bound (false :: marks) methods methods') (n : Bytes) :
    Option.Rel (Function.Renamed r scopes φ [false]) ((methodTable closure methods).lookup n)
      ((methodTable closure methods').lookup n) := by
  refine Paired.methodTable ?_ n
  induction methods generalizing methods' with
  | nil =>
      cases h
      exact .nil
  | cons d ds ih =>
      cases h with
      | cons hd hds => exact .cons ⟨hd.name_eq, rfl, by rw [hd.name_eq], marks, hat, hd⟩ (ih hds)

/-- Methods of a derived class are closed in the scope of `super`, which is not marked. -/
theorem methodScope_renamed (h : σ.Renamed r φ σ') {marks : List Bool}
    (hat : σ.scopes.At φ marks σ.env) (superclass : Option ClassId) :
    (methodScope superclass σ').1 = (methodScope superclass σ).1 ∧
    ∃ φ₁, σ.Later φ (methodScope superclass σ).2 φ₁ ∧
      (methodScope superclass σ).2.Renamed r φ₁ (methodScope superclass σ').2 ∧
      (methodScope superclass σ).2.scopes.At φ₁
        (if superclass.isSome then false :: marks else marks) (methodScope superclass σ).1 := by
  cases superclass with
  | none => exact ⟨h.env, φ, .refl σ φ, h, hat⟩
  | some base =>
      refine ⟨h.scopes.next, State.Renamed.marking σ φ false, ⟨?_, rfl⟩, ?_, ?_⟩
      · exact Scopes.later_push σ.scopes φ (some σ.env) _ false
      · have hscope := h.newScope hat.inside false
          (lookup_fixed Renaming.name_superName (.class base) false)
        simpa only [methodScope, h.env] using hscope
      · exact hat.push h.scopes.older _ false

theorem name_env {marks : List Bool} (hat : σ.scopes.At φ marks σ.env) {t t' : Token}
    (ht : r.bound.binder marks t t') : t'.lexeme = r.name (φ σ.env) t.lexeme :=
  name_ancestor hat ht rfl

theorem finishClass_renamed (h : σ.Renamed r φ σ') {marks : List Bool}
    (hat : σ.scopes.At φ marks σ.env) {name : Token} (hname : r.bound.binder marks name name)
    (hbound : (σ.scopes.bound? σ.env name.lexeme).isSome) (superclass : Option ClassId)
    {methods methods' : List (FunctionDecl Site)}
    (hmethods : FunctionDecl.RespelledAll r.bound (methodMarks superclass.isSome marks) methods
      methods') :
    (finishClass name superclass methods σ).Renamed r φ σ
      (finishClass name superclass methods' σ') := by
  obtain ⟨hclosure, φ₁, hlater, hscope, hinside⟩ := methodScope_renamed h hat superclass
  have hclass : Class.SideBySide (Method.Renamed r (methodScope superclass σ).2.scopes φ₁)
      ⟨name.lexeme, superclass, methodTable (methodScope superclass σ).1 methods⟩
      ⟨name.lexeme, superclass, methodTable (methodScope superclass σ').1 methods'⟩ := by
    refine ⟨rfl, rfl, fun n => ?_⟩
    rw [hclosure]
    exact methodTable_renamed hinside hmethods n
  obtain ⟨-, hadded⟩ := hscope.newClass hclass
  have hbound' : (σ'.scopes.bound? σ'.env name.lexeme).isSome := by
    rw [h.env, h.scopes.bound?_of_ne _ (name_env hat hname).symm]
    exact hbound
  have hspelled : name.lexeme = r.name (φ₁ σ.env) name.lexeme := by
    rw [← hlater.env]
    exact name_env (hlater.at_env h hat) hname
  have hsize : σ'.classes.size = σ.classes.size := h.classes.size
  rw [finishClass_eq hbound, finishClass_eq hbound', h.env, hsize]
  refine .ok ⟨?_, hlater.env⟩ (hadded.define σ.env hspelled _)
  exact hlater.scopes.trans (Scopes.later_define _ φ₁ _ _ _)

end Eval

end Lox
