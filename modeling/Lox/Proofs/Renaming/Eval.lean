import Lox.Proofs.Renaming.Operators

/-!
# Evaluation with a variable renamed

Respelled code, run in a state that differs by the renaming, ends in the same way. A block or a call
creates a scope whose mark is that of its scope in the text. Each name is looked up in the scope that
it is bound to, so code meets the spelling that the scope has.
-/

namespace Lox

open Resolution Eval

/-- With that fuel, everything that the evaluator does is the same under the renaming. -/
structure RunsRenamed (r : Renaming) (n : Nat) : Prop where
  eval : ∀ {φ : ScopeMarks} {σ σ' : State} {marks : List Bool} {e e' : Expr Site},
    σ.Renamed r φ σ' → σ.scopes.At φ marks σ.env → e.Respelled r.bound marks e' →
    (e.eval n σ).Renamed r φ σ (e'.eval n σ')
  evalAll : ∀ {φ : ScopeMarks} {σ σ' : State} {marks : List Bool} {es es' : List (Expr Site)},
    σ.Renamed r φ σ' → σ.scopes.At φ marks σ.env →
    List.Forall₂ (Expr.Respelled r.bound marks) es es' →
    (Expr.evalAll n es σ).Renamed r φ σ (Expr.evalAll n es' σ')
  call : ∀ {φ : ScopeMarks} {σ σ' : State} (callee : Value) (paren : Token)
    (arguments : List Value), σ.Renamed r φ σ' →
    (callee.call n paren arguments σ).Renamed r φ σ (callee.call n paren arguments σ')
  apply : ∀ {φ : ScopeMarks} {σ σ' : State} (callee : Value) (arguments : List Value),
    σ.Renamed r φ σ' → (callee.apply n arguments σ).Renamed r φ σ (callee.apply n arguments σ')
  invoke : ∀ {φ : ScopeMarks} {σ σ' : State} {f f' : Function} (arguments : List Value),
    σ.Renamed r φ σ' → f.Renamed r σ.scopes φ [] f' →
    (f.apply n arguments σ).Renamed r φ σ (f'.apply n arguments σ')
  scope : ∀ {φ : ScopeMarks} {σ σ' : State} {outer : List Bool} {isMarked : Bool}
    {body body' : List (Stmt Site)} {parent : ScopeId} {bindings bindings' : Bindings Value},
    σ.Renamed r φ σ' → σ.scopes.At φ outer parent →
    (∀ n, bindings'.lookup (r.name isMarked n) = bindings.lookup n) →
    Stmt.RespelledAll r.bound (isMarked :: outer) body body' →
    (Stmt.execScope n body parent bindings σ).Renamed r φ σ
      (Stmt.execScope n body' parent bindings' σ')
  execAll : ∀ {φ : ScopeMarks} {σ σ' : State} {marks : List Bool} {ss ss' : List (Stmt Site)},
    σ.Renamed r φ σ' → σ.scopes.At φ marks σ.env → Stmt.RespelledAll r.bound marks ss ss' →
    (Stmt.execAll n ss σ).Renamed r φ σ (Stmt.execAll n ss' σ')
  exec : ∀ {φ : ScopeMarks} {σ σ' : State} {marks : List Bool} {s s' : Stmt Site},
    σ.Renamed r φ σ' → σ.scopes.At φ marks σ.env → s.Respelled r.bound marks s' →
    (s.exec n σ).Renamed r φ σ (s'.exec n σ')
  loop : ∀ {φ : ScopeMarks} {σ σ' : State} {marks : List Bool} {condition condition' : Expr Site}
    {body body' : Stmt Site}, σ.Renamed r φ σ' → σ.scopes.At φ marks σ.env →
    condition.Respelled r.bound marks condition' → body.Respelled r.bound marks body' →
    (Stmt.loop n condition body σ).Renamed r φ σ (Stmt.loop n condition' body' σ')

namespace RunsRenamed

variable {r : Renaming} {n : Nat} {φ : ScopeMarks} {σ σ' : State} {marks : List Bool}

/-! ### Expressions -/

theorem eval_succ (h : RunsRenamed r n) {e e' : Expr Site} (hσ : σ.Renamed r φ σ')
    (hat : σ.scopes.At φ marks σ.env) (he : e.Respelled r.bound marks e') :
    (e.eval (n + 1) σ).Renamed r φ σ (e'.eval (n + 1) σ') := by
  cases he with
  | assign hname hvalue =>
      simp only [Expr.eval]
      refine (h.eval hσ hat hvalue).bind fun v φ₁ σ₁ σ₁' hlater hσ₁ => ?_
      exact assign_renamed hσ₁ (hlater.at_env hσ hat) hname v
  | binary hleft hright =>
      simp only [Expr.eval]
      refine (h.eval hσ hat hleft).bind fun a φ₁ σ₁ σ₁' hlater hσ₁ => ?_
      refine (h.eval hσ₁ (hlater.at_env hσ hat) hright).bind fun b φ₂ σ₂ σ₂' _ hσ₂ => ?_
      exact hσ₂.lockstep.operates (operates_binary _ a b)
  | call hcallee harguments =>
      simp only [Expr.eval]
      refine (h.eval hσ hat hcallee).bind fun f φ₁ σ₁ σ₁' hlater hσ₁ => ?_
      refine (h.evalAll hσ₁ (hlater.at_env hσ hat) harguments).bind fun vs φ₂ σ₂ σ₂' _ hσ₂ => ?_
      exact h.call f _ vs hσ₂
  | get hobject =>
      simp only [Expr.eval]
      refine (h.eval hσ hat hobject).bind fun v φ₁ σ₁ σ₁' _ hσ₁ => ?_
      exact hσ₁.lockstep.get v _
  | group hinner =>
      simp only [Expr.eval]
      exact h.eval hσ hat hinner
  | literal =>
      simp only [Expr.eval]
      exact hσ.ok _
  | logical hleft hright =>
      simp only [Expr.eval]
      refine (h.eval hσ hat hleft).bind fun a φ₁ σ₁ σ₁' hlater hσ₁ => ?_
      split
      · exact hσ₁.ok a
      · exact h.eval hσ₁ (hlater.at_env hσ hat) hright
  | set hobject hvalue =>
      simp only [Expr.eval]
      refine (h.eval hσ hat hobject).bind fun o φ₁ σ₁ σ₁' hlater hσ₁ => ?_
      cases o with
      | object id =>
          dsimp only
          refine (h.eval hσ₁ (hlater.at_env hσ hat) hvalue).bind fun v φ₂ σ₂ σ₂' _ hσ₂ => ?_
          simp only [State.setField, hσ₂.objects]
          exact .ok ⟨.refl σ₂.scopes φ₂, rfl⟩ (hσ₂.withObjects _)
      | _ => exact hσ₁.fail _ _
  | «super» _ =>
      simp only [Expr.eval]
      exact super_renamed hσ _ _
  | this hkeyword =>
      simp only [Expr.eval]
      exact read_renamed hσ hat (Renaming.use_of_word hkeyword marks _)
  | unary hoperand =>
      simp only [Expr.eval]
      refine (h.eval hσ hat hoperand).bind fun v φ₁ σ₁ σ₁' _ hσ₁ => ?_
      exact hσ₁.lockstep.operates (operates_unary _ v)
  | read hname =>
      simp only [Expr.eval]
      exact read_renamed hσ hat hname

theorem evalAll_succ (h : RunsRenamed r n) {es es' : List (Expr Site)} (hσ : σ.Renamed r φ σ')
    (hat : σ.scopes.At φ marks σ.env)
    (hes : List.Forall₂ (Expr.Respelled r.bound marks) es es') :
    (Expr.evalAll (n + 1) es σ).Renamed r φ σ (Expr.evalAll (n + 1) es' σ') := by
  cases hes with
  | nil =>
      simp only [Expr.evalAll]
      exact hσ.ok _
  | cons he hes =>
      simp only [Expr.evalAll]
      refine (h.eval hσ hat he).bind fun v φ₁ σ₁ σ₁' hlater hσ₁ => ?_
      refine (h.evalAll hσ₁ (hlater.at_env hσ hat) hes).bind fun vs φ₂ σ₂ σ₂' _ hσ₂ => ?_
      exact hσ₂.ok _

/-! ### Calls -/

theorem call_succ (h : RunsRenamed r n) (callee : Value) (paren : Token) (arguments : List Value)
    (hσ : σ.Renamed r φ σ') :
    (callee.call (n + 1) paren arguments σ).Renamed r φ σ
      (callee.call (n + 1) paren arguments σ') := by
  simp only [Value.call, refusal?_renamed hσ]
  cases refusal? callee arguments.length σ with
  | some cause => exact hσ.fail _ _
  | none =>
      have hdeeper : ({ σ with depth := σ.depth + 1 } : State).Renamed r φ
          { σ' with depth := σ'.depth + 1 } := { hσ with depth := by rw [hσ.depth] }
      refine (h.apply callee arguments hdeeper).leaving ?_ (fun _ => rfl) fun _ => rfl
      intro φ₂ σ₂ σ₂' hlater hσ₂
      exact ⟨⟨hlater.scopes, hlater.env⟩, { hσ₂ with depth := by rw [hσ₂.depth] }⟩

theorem apply_succ (h : RunsRenamed r n) (callee : Value) (arguments : List Value)
    (hσ : σ.Renamed r φ σ') :
    (callee.apply (n + 1) arguments σ).Renamed r φ σ (callee.apply (n + 1) arguments σ') := by
  cases callee with
  | function id =>
      simp only [Value.apply]
      have hid := hσ.functions.rel id
      generalize σ.functions[id]? = x at hid ⊢
      generalize σ'.functions[id]? = y at hid ⊢
      cases hid with
      | some hf => exact h.invoke arguments hσ hf
      | none => exact .broken
  | clock =>
      simp only [Value.apply]
      exact hσ.lockstep.readClock
  | «class» id =>
      simp only [Value.apply, State.newObject, hσ.objects]
      have hobject := hσ.withObjects (σ.objects.push ⟨id, []⟩)
      have hsame : σ.Later φ { σ with objects := σ.objects.push ⟨id, []⟩ } φ :=
        ⟨.refl σ.scopes φ, rfl⟩
      have hinit := hobject.method? id initName
      generalize State.method? _ id initName = x at hinit ⊢
      generalize State.method? _ id initName = y at hinit ⊢
      cases hinit with
      | none => exact .ok hsame hobject
      | some hf =>
          obtain ⟨φ₁, hlater, hbound, hmethod⟩ := bindMethod_renamed hobject hf σ.objects.size
          refine Outcome.Renamed.after ?_ (hsame.trans hlater)
          exact (h.invoke arguments hbound hmethod).bind fun _ φ₂ σ₂ σ₂' _ hσ₂ => hσ₂.ok _
  | _ =>
      simp only [Value.apply]
      exact .broken

theorem invoke_succ (h : RunsRenamed r n) {f f' : Function} (arguments : List Value)
    (hσ : σ.Renamed r φ σ') (hf : f.Renamed r σ.scopes φ [] f') :
    (f.apply (n + 1) arguments σ).Renamed r φ σ (f'.apply (n + 1) arguments σ') := by
  obtain ⟨decl, closure, isInitializer⟩ := f
  obtain ⟨decl', closure', isInitializer'⟩ := f'
  obtain ⟨hclosure, hinitializer, outer, hat, hcode⟩ := hf
  dsimp only at hclosure hinitializer hat hcode
  subst hclosure hinitializer
  cases hcode with
  | mk hparams hbody =>
      simp only [Function.apply]
      refine (h.scope hσ hat (parameters_renamed hparams arguments) hbody).bind ?_
      intro c φ₁ σ₁ σ₁' _ hσ₁
      exact result_renamed hσ₁ rfl rfl c

/-- A scope that is created for code has the mark that it has in the text. -/
theorem scope_succ (h : RunsRenamed r n) {outer : List Bool} {isMarked : Bool}
    {body body' : List (Stmt Site)} {parent : ScopeId} {bindings bindings' : Bindings Value}
    (hσ : σ.Renamed r φ σ') (hat : σ.scopes.At φ outer parent)
    (hbindings : ∀ n, bindings'.lookup (r.name isMarked n) = bindings.lookup n)
    (hbody : Stmt.RespelledAll r.bound (isMarked :: outer) body body') :
    (Stmt.execScope (n + 1) body parent bindings σ).Renamed r φ σ
      (Stmt.execScope (n + 1) body' parent bindings' σ') := by
  have hentered := hσ.enter hat.inside isMarked hbindings
  have hinside := hat.push hσ.scopes.older bindings isMarked
  have hcreated := Scopes.later_push σ.scopes φ (some parent) bindings isMarked
  simp only [Stmt.execScope, hσ.env]
  refine (h.execAll hentered hinside hbody).leaving ?_ (fun _ => rfl) fun _ => rfl
  intro φ₂ σ₂ σ₂' hlater hσ₂
  exact ⟨⟨hcreated.trans hlater.scopes, rfl⟩, hσ₂.withEnv σ.env⟩

/-! ### Statements -/

theorem execAll_succ (h : RunsRenamed r n) {ss ss' : List (Stmt Site)} (hσ : σ.Renamed r φ σ')
    (hat : σ.scopes.At φ marks σ.env) (hss : Stmt.RespelledAll r.bound marks ss ss') :
    (Stmt.execAll (n + 1) ss σ).Renamed r φ σ (Stmt.execAll (n + 1) ss' σ') := by
  cases hss with
  | nil =>
      simp only [Stmt.execAll]
      exact hσ.ok _
  | cons hs hss =>
      simp only [Stmt.execAll]
      refine (h.exec hσ hat hs).bind fun c φ₁ σ₁ σ₁' hlater hσ₁ => ?_
      cases c with
      | normal => exact h.execAll hσ₁ (hlater.at_env hσ hat) hss
      | returned v => exact hσ₁.ok _

theorem exec_class (hσ : σ.Renamed r φ σ') (hat : σ.scopes.At φ marks σ.env) {name : Token}
    {superclass superclass' : Option (Token × Site)} {methods methods' : List (FunctionDecl Site)}
    (hname : r.bound.binder marks name name)
    (hsuperclass : RespelledBase r.bound marks superclass superclass')
    (hmethods : FunctionDecl.RespelledAll r.bound (methodMarks superclass.isSome marks) methods
      methods') :
    ((Stmt.class name superclass methods).exec (n + 1) σ).Renamed r φ σ
      ((Stmt.class name superclass' methods').exec (n + 1) σ') := by
  have hdefined := hσ.define σ.env (name_env hat hname) .nil
  have hcreated : σ.Later φ (σ.define σ.env name.lexeme .nil) φ :=
    ⟨Scopes.later_define σ.scopes φ σ.env name.lexeme .nil, rfl⟩
  have hinside := hcreated.at_env hσ hat
  have hbound : ((σ.define σ.env name.lexeme .nil).scopes.bound? σ.env name.lexeme).isSome := by
    rw [State.define, Scopes.bound?_define, if_pos ⟨rfl, rfl, hat.inside⟩]
    rfl
  simp only [Stmt.exec, hσ.env]
  refine Outcome.Renamed.after ?_ hcreated
  cases hsuperclass with
  | none => exact finishClass_renamed hdefined hinside hname hbound none hmethods
  | some huse =>
      dsimp only
      refine (read_renamed hdefined hinside huse).bind fun v φ₁ σ₁ σ₁' hlater hσ₁ => ?_
      cases v with
      | «class» id =>
          refine finishClass_renamed hσ₁ (hlater.at_env hdefined hinside) hname ?_ (some id) hmethods
          rw [hlater.env]
          exact hlater.scopes.grows.bound _ _ hbound
      | _ => exact .error (Renaming.respells_of_bound_use huse) hσ₁.printed

theorem exec_succ (h : RunsRenamed r n) {s s' : Stmt Site} (hσ : σ.Renamed r φ σ')
    (hat : σ.scopes.At φ marks σ.env) (hs : s.Respelled r.bound marks s') :
    (s.exec (n + 1) σ).Renamed r φ σ (s'.exec (n + 1) σ') := by
  cases hs with
  | block hbody =>
      simp only [Stmt.exec, hσ.env]
      exact h.scope hσ hat (fun _ => rfl) hbody
  | «class» hname hsuperclass hmethods => exact exec_class hσ hat hname hsuperclass hmethods
  | expr he =>
      simp only [Stmt.exec]
      exact (h.eval hσ hat he).bind fun _ φ₁ σ₁ σ₁' _ hσ₁ => hσ₁.ok _
  | @function _ decl decl' hname hdecl =>
      simp only [Stmt.exec]
      have hf : Function.Renamed r σ.scopes φ [] ⟨decl, σ.env, false⟩ ⟨decl', σ'.env, false⟩ :=
        ⟨hσ.env, rfl, marks, hat, hdecl⟩
      obtain ⟨hid, hadded⟩ := hσ.newFunction hf
      have hvalue : (σ'.functionValue ⟨decl', σ'.env, false⟩).1 =
          (σ.functionValue ⟨decl, σ.env, false⟩).1 := congrArg Value.function hid
      have henv : (σ'.functionValue ⟨decl', σ'.env, false⟩).2.env = σ.env := hσ.env
      rw [hvalue, hdecl.name_eq, henv]
      refine .ok ⟨Scopes.later_define σ.scopes φ _ _ _, rfl⟩ ?_
      exact hadded.define σ.env (name_env hat hname) _
  | ifThen hcondition hyes =>
      simp only [Stmt.exec]
      refine (h.eval hσ hat hcondition).bind fun v φ₁ σ₁ σ₁' hlater hσ₁ => ?_
      split
      · exact h.exec hσ₁ (hlater.at_env hσ hat) hyes
      · exact hσ₁.ok _
  | ifElse hcondition hyes hno =>
      simp only [Stmt.exec]
      refine (h.eval hσ hat hcondition).bind fun v φ₁ σ₁ σ₁' hlater hσ₁ => ?_
      split
      · exact h.exec hσ₁ (hlater.at_env hσ hat) hyes
      · exact h.exec hσ₁ (hlater.at_env hσ hat) hno
  | print he =>
      simp only [Stmt.exec]
      refine (h.eval hσ hat he).bind fun v φ₁ σ₁ σ₁' _ hσ₁ => ?_
      rw [hσ₁.text Function.Renamed.sameSignature]
      refine .ok ⟨.refl σ₁.scopes φ₁, rfl⟩ { hσ₁ with printed := ?_ }
      exact congrArg (σ₁.text v :: ·) hσ₁.printed
  | «return» hvalue =>
      cases hvalue with
      | none =>
          simp only [Stmt.exec]
          exact hσ.ok _
      | some he =>
          simp only [Stmt.exec]
          exact (h.eval hσ hat he).bind fun v φ₁ σ₁ σ₁' _ hσ₁ => hσ₁.ok _
  | var hname hinit =>
      cases hinit with
      | none =>
          simp only [Stmt.exec, hσ.env]
          exact hσ.ok_define _ σ.env (name_env hat hname) .nil
      | some he =>
          simp only [Stmt.exec]
          refine (h.eval hσ hat he).bind fun v φ₁ σ₁ σ₁' hlater hσ₁ => ?_
          rw [hσ₁.env]
          exact hσ₁.ok_define _ σ₁.env (name_env (hlater.at_env hσ hat) hname) v
  | «while» hcondition hbody =>
      simp only [Stmt.exec]
      exact h.loop hσ hat hcondition hbody

theorem loop_succ (h : RunsRenamed r n) {condition condition' : Expr Site} {body body' : Stmt Site}
    (hσ : σ.Renamed r φ σ') (hat : σ.scopes.At φ marks σ.env)
    (hcondition : condition.Respelled r.bound marks condition')
    (hbody : body.Respelled r.bound marks body') :
    (Stmt.loop (n + 1) condition body σ).Renamed r φ σ
      (Stmt.loop (n + 1) condition' body' σ') := by
  simp only [Stmt.loop]
  refine (h.eval hσ hat hcondition).bind fun v φ₁ σ₁ σ₁' hlater hσ₁ => ?_
  have hinside := hlater.at_env hσ hat
  split
  · refine (h.exec hσ₁ hinside hbody).bind fun c φ₂ σ₂ σ₂' hlater' hσ₂ => ?_
    cases c with
    | normal => exact h.loop hσ₂ (hlater'.at_env hσ₁ hinside) hcondition hbody
    | returned v => exact hσ₂.ok _
  · exact hσ₁.ok _

end RunsRenamed

/-- The evaluator takes no notice of the renaming. -/
theorem runsRenamed (r : Renaming) (n : Nat) : RunsRenamed r n := by
  induction n with
  | zero =>
      constructor <;> intros <;>
        simp only [Expr.eval, Expr.evalAll, Value.call, Value.apply, Function.apply,
          Stmt.execScope, Stmt.execAll, Stmt.exec, Stmt.loop] <;> exact .outOfFuel
  | succ n ih =>
      exact ⟨ih.eval_succ, ih.evalAll_succ, ih.call_succ, ih.apply_succ, ih.invoke_succ,
        ih.scope_succ, ih.execAll_succ, ih.exec_succ, ih.loop_succ⟩

theorem runAll_renamed {r : Renaming} (n : Nat) {φ : ScopeMarks} {σ σ' : State} {marks : List Bool}
    {ss ss' : List (Stmt Site)} (hσ : σ.Renamed r φ σ') (hat : σ.scopes.At φ marks σ.env)
    (hss : Stmt.RespelledAll r.bound marks ss ss') :
    (runAll n ss σ).Renamed r φ σ (runAll n ss' σ') := by
  induction ss generalizing ss' φ σ σ' with
  | nil =>
      cases hss
      exact hσ.ok _
  | cons s ss ih =>
      cases hss with
      | cons hs hss =>
          rw [runAll, runAll]
          refine ((runsRenamed r n).exec hσ hat hs).bind fun _ φ₁ σ₁ σ₁' hlater hσ₁ => ?_
          exact ih hσ₁ (hlater.at_env hσ hat) hss

end Lox
