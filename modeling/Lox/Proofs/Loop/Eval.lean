import Lox.Proofs.Loop.Operators

/-!
# Evaluation with spare scopes

One piece of code, bound in two contexts and run in states that differ by spare scopes, ends in the
same way in both. A scope that is created is created in both states, and what is bound in it is found
at the distance that each context gives.
-/

namespace Lox

open Resolution Eval

/-- With that fuel, everything that the evaluator does is the same with spare scopes. A statement that
declares something does so in a scope that stands in both states. -/
structure RunsPadded (V : Context → Place → Prop) (n : Nat) : Prop where
  eval : ∀ {φ : Placement} {σ σ' : State} {ctx ctx' : Context} {e : Expr Unit},
    σ.Padded V φ σ' → σ.Inside φ σ' ctx ctx' → V ctx' (.expr e) →
    ((e.resolve ctx).eval n σ).Padded V φ σ σ' ((e.resolve ctx').eval n σ')
  evalAll : ∀ {φ : Placement} {σ σ' : State} {ctx ctx' : Context} {es : List (Expr Unit)},
    σ.Padded V φ σ' → σ.Inside φ σ' ctx ctx' → V ctx' (.arguments es) →
    (Expr.evalAll n (Expr.resolveAll ctx es) σ).Padded V φ σ σ'
      (Expr.evalAll n (Expr.resolveAll ctx' es) σ')
  call : ∀ {φ : Placement} {σ σ' : State} (callee : Value) (paren : Token)
    (arguments : List Value), σ.Padded V φ σ' →
    (callee.call n paren arguments σ).Padded V φ σ σ' (callee.call n paren arguments σ')
  apply : ∀ {φ : Placement} {σ σ' : State} (callee : Value) (arguments : List Value),
    σ.Padded V φ σ' →
    (callee.apply n arguments σ).Padded V φ σ σ' (callee.apply n arguments σ')
  invoke : ∀ {φ : Placement} {σ σ' : State} {f f' : Function} (arguments : List Value),
    σ.Padded V φ σ' → f.Padded V φ σ.scopes σ'.scopes [] f' →
    (f.apply n arguments σ).Padded V φ σ σ' (f'.apply n arguments σ')
  scope : ∀ {φ : Placement} {σ σ' : State} {ctx ctx' : Context} {body : List (Stmt Unit)}
    (parent parent' : ScopeId) (bindings : Bindings Value), σ.Padded V φ σ' →
    (σ.enter parent bindings).Inside (State.Padded.placing φ σ σ') (σ'.enter parent' bindings) ctx
      ctx' →
    V ctx' (.stmts body) →
    (Stmt.execScope n (Stmt.resolveAll ctx body) parent bindings σ).Padded V φ σ σ'
      (Stmt.execScope n (Stmt.resolveAll ctx' body) parent' bindings σ')
  execAll : ∀ {φ : Placement} {σ σ' : State} {ctx ctx' : Context} {ss : List (Stmt Unit)},
    σ.Padded V φ σ' → σ.Inside φ σ' ctx ctx' → σ'.env = φ σ.env → V ctx' (.stmts ss) →
    (Stmt.execAll n (Stmt.resolveAll ctx ss) σ).Padded V φ σ σ'
      (Stmt.execAll n (Stmt.resolveAll ctx' ss) σ')
  exec : ∀ {φ : Placement} {σ σ' : State} {ctx ctx' : Context} {s : Stmt Unit},
    σ.Padded V φ σ' → σ.Inside φ σ' ctx ctx' → σ'.env = φ σ.env ∨ Stays s → V ctx' (.stmt s) →
    ((s.resolve ctx).exec n σ).Padded V φ σ σ' ((s.resolve ctx').exec n σ')
  loop : ∀ {φ : Placement} {σ σ' : State} {ctx ctx' : Context} {condition : Expr Unit}
    {body : Stmt Unit}, σ.Padded V φ σ' → σ.Inside φ σ' ctx ctx' → Stays body →
    V ctx' (.expr condition) → V ctx' (.stmt body) →
    (Stmt.loop n (condition.resolve ctx) (body.resolve ctx) σ).Padded V φ σ σ'
      (Stmt.loop n (condition.resolve ctx') (body.resolve ctx') σ')

namespace RunsPadded

variable {V : Context → Place → Prop} {n : Nat} {φ : Placement} {σ σ' : State}
  {ctx ctx' : Context}

/-! ### Expressions -/

theorem eval_succ (hwalked : Walked V) (h : RunsPadded V n) {e : Expr Unit} (hσ : σ.Padded V φ σ')
    (hinside : σ.Inside φ σ' ctx ctx') (hvisit : V ctx' (.expr e)) :
    ((e.resolve ctx).eval (n + 1) σ).Padded V φ σ σ' ((e.resolve ctx').eval (n + 1) σ') := by
  have hnext {p : Place} (hp : p ∈ Place.operands e) : V ctx' p :=
    hwalked.next hvisit (List.mem_map_of_mem hp)
  cases e with
  | assign name site value =>
      simp only [Expr.resolve, Expr.eval]
      refine (h.eval hσ hinside (hnext (by simp [Place.operands]))).bind ?_
      intro v φ₁ σ₁ σ₁' honward hσ₁
      exact assign_padded hσ₁ ((honward.inside hinside).locate name.lexeme) name v
  | binary left operator right =>
      simp only [Expr.resolve, Expr.eval]
      refine (h.eval hσ hinside (hnext (by simp [Place.operands]))).bind ?_
      intro a φ₁ σ₁ σ₁' honward hσ₁
      refine (h.eval hσ₁ (honward.inside hinside) (hnext (by simp [Place.operands]))).bind ?_
      intro b φ₂ σ₂ σ₂' _ hσ₂
      exact hσ₂.lockstep.operates (operates_binary operator a b)
  | call callee paren arguments =>
      simp only [Expr.resolve, Expr.eval]
      refine (h.eval hσ hinside (hnext (by simp [Place.operands]))).bind ?_
      intro f φ₁ σ₁ σ₁' honward hσ₁
      refine (h.evalAll hσ₁ (honward.inside hinside) (hnext (by simp [Place.operands]))).bind ?_
      intro vs φ₂ σ₂ σ₂' _ hσ₂
      exact h.call f paren vs hσ₂
  | get object name =>
      simp only [Expr.resolve, Expr.eval]
      refine (h.eval hσ hinside (hnext (by simp [Place.operands]))).bind ?_
      intro v φ₁ σ₁ σ₁' _ hσ₁
      exact hσ₁.lockstep.get v name
  | group inner =>
      simp only [Expr.resolve, Expr.eval]
      exact h.eval hσ hinside (hnext (by simp [Place.operands]))
  | literal value =>
      simp only [Expr.resolve, Expr.eval]
      exact hσ.ok _
  | logical left operator right =>
      simp only [Expr.resolve, Expr.eval]
      refine (h.eval hσ hinside (hnext (by simp [Place.operands]))).bind ?_
      intro a φ₁ σ₁ σ₁' honward hσ₁
      split
      · exact hσ₁.ok a
      · exact h.eval hσ₁ (honward.inside hinside) (hnext (by simp [Place.operands]))
  | set object name value =>
      simp only [Expr.resolve, Expr.eval]
      refine (h.eval hσ hinside (hnext (by simp [Place.operands]))).bind ?_
      intro o φ₁ σ₁ σ₁' honward hσ₁
      cases o with
      | object id =>
          dsimp only
          refine (h.eval hσ₁ (honward.inside hinside) (hnext (by simp [Place.operands]))).bind ?_
          intro v φ₂ σ₂ σ₂' _ hσ₂
          simp only [State.setField, hσ₂.objects]
          exact .ok (.of_scopes φ₂ rfl rfl rfl rfl) (hσ₂.withObjects _)
      | _ => exact hσ₁.lockstep.fail _ _
  | «super» keyword site method =>
      obtain ⟨d', hlocate', hthis, hsuper⟩ := (hwalked.checked hvisit).super
      obtain ⟨d, hready, hreceiver⟩ := hinside.scopes.receiver hthis hsuper
      have hname : keyword.lexeme = superName := (hwalked.checked hvisit).wellFormed.fine
      have hlocate : ctx.locate keyword.lexeme = some (d + 1) := by
        rw [hname]
        exact hready.locate
      simp only [Expr.resolve, Expr.eval, hlocate, hlocate']
      exact super_padded hσ hreceiver method
  | this keyword site =>
      simp only [Expr.resolve, Expr.eval]
      exact read_padded hσ (hinside.locateThis keyword) keyword
  | unary operator operand =>
      simp only [Expr.resolve, Expr.eval]
      refine (h.eval hσ hinside (hnext (by simp [Place.operands]))).bind ?_
      intro v φ₁ σ₁ σ₁' _ hσ₁
      exact hσ₁.lockstep.operates (operates_unary operator v)
  | read name site =>
      simp only [Expr.resolve, Expr.eval]
      exact read_padded hσ (hinside.locate name.lexeme) name

theorem evalAll_succ (hwalked : Walked V) (h : RunsPadded V n) {es : List (Expr Unit)}
    (hσ : σ.Padded V φ σ') (hinside : σ.Inside φ σ' ctx ctx') (hvisit : V ctx' (.arguments es)) :
    (Expr.evalAll (n + 1) (Expr.resolveAll ctx es) σ).Padded V φ σ σ'
      (Expr.evalAll (n + 1) (Expr.resolveAll ctx' es) σ') := by
  cases es with
  | nil =>
      simp only [Expr.resolveAll, Expr.evalAll]
      exact hσ.ok _
  | cons e es =>
      have he : V ctx' (.expr e) := hwalked.next hvisit (by simp [Place.next])
      have hes : V ctx' (.arguments es) := hwalked.next hvisit (by simp [Place.next])
      simp only [Expr.resolveAll, Expr.evalAll]
      refine (h.eval hσ hinside he).bind ?_
      intro v φ₁ σ₁ σ₁' honward hσ₁
      refine (h.evalAll hσ₁ (honward.inside hinside) hes).bind ?_
      intro vs φ₂ σ₂ σ₂' _ hσ₂
      exact hσ₂.ok _

/-! ### Calls -/

theorem call_succ (h : RunsPadded V n) (callee : Value) (paren : Token) (arguments : List Value)
    (hσ : σ.Padded V φ σ') :
    (callee.call (n + 1) paren arguments σ).Padded V φ σ σ'
      (callee.call (n + 1) paren arguments σ') := by
  simp only [Value.call, refusal?_padded hσ]
  cases refusal? callee arguments.length σ with
  | some cause => exact hσ.lockstep.fail _ _
  | none =>
      refine (h.apply callee arguments (hσ.withDepth (· + 1))).leaving ?_
      intro φ₂ σ₂ σ₂' honward hσ₂
      exact ⟨⟨honward.scopes, honward.env, honward.env'⟩, hσ₂.withDepth (· - 1)⟩

theorem apply_succ (h : RunsPadded V n) (callee : Value) (arguments : List Value)
    (hσ : σ.Padded V φ σ') :
    (callee.apply (n + 1) arguments σ).Padded V φ σ σ' (callee.apply (n + 1) arguments σ') := by
  cases callee with
  | function id =>
      simp only [Value.apply]
      have hid := hσ.functions.rel id
      generalize σ.functions[id]? = x at hid ⊢
      generalize σ'.functions[id]? = y at hid ⊢
      cases hid with
      | some hf => exact h.invoke arguments hσ hf
      | none => exact .broken
  | clock =>
      simp only [Value.apply]
      exact hσ.lockstep.readClock
  | «class» id =>
      simp only [Value.apply, State.newObject, hσ.objects]
      have hobject := hσ.withObjects (σ.objects.push ⟨id, []⟩)
      have hsame : State.Onward φ σ σ' φ { σ with objects := σ.objects.push ⟨id, []⟩ }
          { σ' with objects := σ.objects.push ⟨id, []⟩ } := .of_scopes φ rfl rfl rfl rfl
      have hinit := hobject.method? id initName
      generalize State.method? _ id initName = x at hinit ⊢
      generalize State.method? _ id initName = y at hinit ⊢
      cases hinit with
      | none => exact .ok hsame hobject
      | some hf =>
          obtain ⟨φ₁, honward, hbound, hmethod⟩ := bindMethod_padded hobject hf σ.objects.size
          apply Outcome.Padded.after _ (hsame.trans honward)
          refine (h.invoke arguments hbound hmethod).bind ?_
          intro _ φ₂ σ₂ σ₂' _ hσ₂
          exact hσ₂.ok _
  | _ =>
      simp only [Value.apply]
      exact .broken

/-- A call creates a scope in both states, with the same bindings. -/
theorem invoke_succ (hwalked : Walked V) (h : RunsPadded V n) {f f' : Function}
    (arguments : List Value) (hσ : σ.Padded V φ σ')
    (hf : f.Padded V φ σ.scopes σ'.scopes [] f') :
    (f.apply (n + 1) arguments σ).Padded V φ σ σ' (f'.apply (n + 1) arguments σ') := by
  obtain ⟨kind, d, ctx, ctx', hvisit, hdecl, hdecl', henclosed⟩ := hf.code
  have hparameters : parameters f' arguments = parameters f arguments := by
    unfold parameters
    rw [hdecl, hdecl', params_resolve, params_resolve]
  have hbody : V (ctx'.inFunction kind d.params) (.stmts d.body) :=
    hwalked.next hvisit (by simp [Place.next])
  have hclosed := henclosed.inside hσ.scopes.nonempty
  simp only [Function.apply, hparameters]
  rw [hdecl, hdecl', body_resolve, body_resolve]
  refine (h.scope f.closure f'.closure _ hσ
    (henclosed.alongside.inFunction kind d.params _) hbody).bind ?_
  intro c φ₁ σ₁ σ₁' honward hσ₁
  have hclosure : f'.closure = φ₁ f.closure := by
    rw [honward.scopes.same f.closure hclosed]
    exact hf.closure
  exact result_padded hσ₁ hclosure (Nat.lt_of_lt_of_le hclosed honward.scopes.grows.next)
    hf.isInitializer c

theorem scope_succ (h : RunsPadded V n) {body : List (Stmt Unit)} (parent parent' : ScopeId)
    (bindings : Bindings Value) (hσ : σ.Padded V φ σ')
    (hinside : (σ.enter parent bindings).Inside (State.Padded.placing φ σ σ')
      (σ'.enter parent' bindings) ctx ctx')
    (hvisit : V ctx' (.stmts body)) :
    (Stmt.execScope (n + 1) (Stmt.resolveAll ctx body) parent bindings σ).Padded V φ σ σ'
      (Stmt.execScope (n + 1) (Stmt.resolveAll ctx' body) parent' bindings σ') := by
  have hentered := hσ.enter parent parent' bindings
  have hcreated := Scopes.onward_push φ σ.scopes σ'.scopes (some parent) (some parent') bindings
  have hstands : (σ'.enter parent' bindings).env =
      State.Padded.placing φ σ σ' (σ.enter parent bindings).env :=
    (Function.update_self σ.scopes.next σ'.scopes.next φ).symm
  simp only [Stmt.execScope]
  refine (h.execAll hentered hinside hstands hvisit).leaving ?_
  intro φ₂ σ₂ σ₂' honward hσ₂
  exact ⟨⟨hcreated.trans honward.scopes, rfl, rfl⟩, hσ₂.withEnv σ.env σ'.env⟩

/-! ### Statements -/

theorem execAll_succ (hwalked : Walked V) (h : RunsPadded V n) {ss : List (Stmt Unit)}
    (hσ : σ.Padded V φ σ') (hinside : σ.Inside φ σ' ctx ctx') (hstands : σ'.env = φ σ.env)
    (hvisit : V ctx' (.stmts ss)) :
    (Stmt.execAll (n + 1) (Stmt.resolveAll ctx ss) σ).Padded V φ σ σ'
      (Stmt.execAll (n + 1) (Stmt.resolveAll ctx' ss) σ') := by
  cases ss with
  | nil =>
      simp only [Stmt.resolveAll, Stmt.execAll]
      exact hσ.ok _
  | cons s ss =>
      have hs : V ctx' (.stmt s) := hwalked.next hvisit (by simp [Place.next])
      have hss : V (ctx'.after s) (.stmts ss) := hwalked.next hvisit (by simp [Place.next])
      simp only [Stmt.resolveAll, Stmt.execAll]
      refine (h.exec hσ hinside (.inl hstands) hs).bind ?_
      intro c φ₁ σ₁ σ₁' honward hσ₁
      cases c with
      | normal =>
          have hstands₁ := honward.stands (hinside.scopes.inside hσ.scopes.nonempty) hstands
          exact h.execAll hσ₁ ((honward.inside hinside).after hσ₁.scopes.nonempty
            (hwalked.checked hs).wellFormed.fine hstands₁) hstands₁ hss
      | returned v => exact hσ₁.ok _

theorem exec_class (hwalked : Walked V) (hσ : σ.Padded V φ σ') (hinside : σ.Inside φ σ' ctx ctx')
    (hstands : σ'.env = φ σ.env) {name : Token} {base : Option (Token × Unit)}
    {ds : List (FunctionDecl Unit)} (hvisit : V ctx' (.stmt (.class name base ds))) :
    (((Stmt.class name base ds).resolve ctx).exec (n + 1) σ).Padded V φ σ σ'
      (((Stmt.class name base ds).resolve ctx').exec (n + 1) σ') := by
  have henv := hinside.scopes.inside hσ.scopes.nonempty
  have hdefined := hσ.define henv name.lexeme .nil
  have hcreated : State.Onward φ σ σ' φ (σ.define σ.env name.lexeme .nil)
      (σ'.define (φ σ.env) name.lexeme .nil) :=
    ⟨Scopes.onward_define φ σ.scopes σ'.scopes σ.env (φ σ.env) name.lexeme .nil, rfl, rfl⟩
  have hinside₁ := Alongside.mark (hcreated.inside hinside) hdefined.scopes.nonempty hstands
    name.lexeme true
  have hbound : ((σ.define σ.env name.lexeme .nil).scopes.bound? σ.env name.lexeme).isSome := by
    rw [State.define, Scopes.bound?_define, if_pos ⟨rfl, rfl, henv⟩]
    rfl
  have hmethods : V ((ctx'.define name).inClass base.isSome) (.methods ds) :=
    hwalked.next hvisit (by simp [Place.next, Place.parts])
  simp only [Stmt.resolve, Stmt.exec, hstands]
  apply Outcome.Padded.after _ hcreated
  cases base with
  | none => exact finishClass_padded hwalked hdefined hinside₁ hstands hbound none hmethods
  | some base =>
      simp only [Option.map_some]
      refine (read_padded hdefined (hinside₁.locate base.1.lexeme) base.1).bind ?_
      intro v φ₁ σ₁ σ₁' honward hσ₁
      cases v with
      | «class» id =>
          refine finishClass_padded hwalked hσ₁ (honward.inside hinside₁) ?_ ?_ (some id) hmethods
          · exact honward.stands (hinside₁.scopes.inside hdefined.scopes.nonempty) hstands
          · rw [honward.env]
            exact honward.scopes.grows.bound _ _ hbound
      | _ => exact hσ₁.error _

theorem exec_function (hσ : σ.Padded V φ σ') (hinside : σ.Inside φ σ' ctx ctx')
    (hstands : σ'.env = φ σ.env) {d : FunctionDecl Unit}
    (hvisit : V (ctx'.define d.name) (.function .function d)) :
    (((Stmt.function d).resolve ctx).exec (n + 1) σ).Padded V φ σ σ'
      (((Stmt.function d).resolve ctx').exec (n + 1) σ') := by
  have henv := hinside.scopes.inside hσ.scopes.nonempty
  have hclosed := Alongside.mark hinside hσ.scopes.nonempty hstands d.name.lexeme true
  have hf : Function.Padded V φ σ.scopes σ'.scopes []
      ⟨d.resolve (ctx.define d.name) .function, σ.env, false⟩
      ⟨d.resolve (ctx'.define d.name) .function, σ'.env, false⟩ :=
    ⟨hstands, rfl, .function, d, ctx.define d.name, ctx'.define d.name, hvisit, rfl, rfl,
      hclosed.enclosed⟩
  obtain ⟨hid, hadded⟩ := hσ.newFunction hf
  have hdefined := hadded.define henv d.name.lexeme (.function σ.functions.size)
  have hsize : σ'.functions.size = σ.functions.size := hid
  simp only [Stmt.resolve, Stmt.exec, State.functionValue, State.newFunction, name_resolve, hsize,
    hstands] at hdefined ⊢
  exact .ok ⟨Scopes.onward_define φ _ _ _ _ _ _, rfl, hstands.symm⟩ hdefined

theorem exec_var (hwalked : Walked V) (h : RunsPadded V n) (hσ : σ.Padded V φ σ')
    (hinside : σ.Inside φ σ' ctx ctx') (hstands : σ'.env = φ σ.env) {name : Token}
    {init : Option (Expr Unit)} (hvisit : V ctx' (.stmt (.var name init))) :
    (((Stmt.var name init).resolve ctx).exec (n + 1) σ).Padded V φ σ σ'
      (((Stmt.var name init).resolve ctx').exec (n + 1) σ') := by
  have henv := hinside.scopes.inside hσ.scopes.nonempty
  cases init with
  | none =>
      simp only [Stmt.resolve, Option.map_none, Stmt.exec, hstands]
      exact hσ.ok_define _ henv name.lexeme .nil
  | some e =>
      have he : V (ctx'.declare name) (.expr e) :=
        hwalked.next hvisit (by simp [Place.next, Place.parts, Place.expr?])
      simp only [Stmt.resolve, Option.map_some, Stmt.exec]
      refine (h.eval hσ (hinside.mark hσ.scopes.nonempty hstands name.lexeme false) he).bind ?_
      intro v φ₁ σ₁ σ₁' honward hσ₁
      rw [honward.stands henv hstands]
      exact hσ₁.ok_define _ ((honward.inside hinside).scopes.inside hσ₁.scopes.nonempty)
        name.lexeme v

theorem exec_succ (hwalked : Walked V) (h : RunsPadded V n) {s : Stmt Unit} (hσ : σ.Padded V φ σ')
    (hinside : σ.Inside φ σ' ctx ctx') (hstands : σ'.env = φ σ.env ∨ Stays s)
    (hvisit : V ctx' (.stmt s)) :
    ((s.resolve ctx).exec (n + 1) σ).Padded V φ σ σ' ((s.resolve ctx').exec (n + 1) σ') := by
  have hnext {ctx₁ : Context} {p : Place} (hp : (ctx₁, p) ∈ Place.parts ctx' s) : V ctx₁ p :=
    hwalked.next hvisit hp
  have hfine : Place.FineStmt s := (hwalked.checked hvisit).wellFormed.fine
  cases s with
  | block body =>
      simp only [Stmt.resolve, Stmt.exec]
      exact h.scope σ.env σ'.env [] hσ (Alongside.push hinside [] [])
        (hnext (by simp [Place.parts]))
  | «class» name base ds =>
      exact exec_class hwalked hσ hinside (hstands.resolve_right (not_stays_of_declares fun _ => rfl))
        hvisit
  | expr e =>
      simp only [Stmt.resolve, Stmt.exec]
      refine (h.eval hσ hinside (hnext (by simp [Place.parts]))).bind ?_
      intro _ φ₁ σ₁ σ₁' _ hσ₁
      exact hσ₁.ok _
  | function d =>
      exact exec_function hσ hinside (hstands.resolve_right (not_stays_of_declares fun _ => rfl))
        (hnext (by simp [Place.parts]))
  | ifThen condition thenBranch =>
      simp only [Stmt.resolve, Stmt.exec]
      refine (h.eval hσ hinside (hnext (by simp [Place.parts]))).bind ?_
      intro v φ₁ σ₁ σ₁' honward hσ₁
      split
      · exact h.exec hσ₁ (honward.inside hinside) (.inr hfine) (hnext (by simp [Place.parts]))
      · exact hσ₁.ok _
  | ifElse condition thenBranch elseBranch =>
      have helse : V (ctx'.after thenBranch) (.stmt elseBranch) := hnext (by simp [Place.parts])
      simp only [Stmt.resolve, Stmt.exec, hfine.1 ctx, hfine.1 ctx'] at helse ⊢
      refine (h.eval hσ hinside (hnext (by simp [Place.parts]))).bind ?_
      intro v φ₁ σ₁ σ₁' honward hσ₁
      split
      · exact h.exec hσ₁ (honward.inside hinside) (.inr hfine.1) (hnext (by simp [Place.parts]))
      · exact h.exec hσ₁ (honward.inside hinside) (.inr hfine.2) helse
  | print e =>
      simp only [Stmt.resolve, Stmt.exec]
      refine (h.eval hσ hinside (hnext (by simp [Place.parts]))).bind ?_
      intro v φ₁ σ₁ σ₁' _ hσ₁
      rw [hσ₁.text Function.Padded.sameSignature]
      exact .ok (.of_scopes φ₁ rfl rfl rfl rfl) (hσ₁.print _)
  | «return» keyword value =>
      cases value with
      | none =>
          simp only [Stmt.resolve, Option.map_none, Stmt.exec]
          exact hσ.ok _
      | some e =>
          simp only [Stmt.resolve, Option.map_some, Stmt.exec]
          refine (h.eval hσ hinside (hnext (by simp [Place.parts, Place.expr?]))).bind ?_
          intro v φ₁ σ₁ σ₁' _ hσ₁
          exact hσ₁.ok _
  | var name init =>
      exact exec_var hwalked h hσ hinside
        (hstands.resolve_right (not_stays_of_declares fun _ => rfl)) hvisit
  | «while» condition body =>
      simp only [Stmt.resolve, Stmt.exec]
      exact h.loop hσ hinside hfine (hnext (by simp [Place.parts])) (hnext (by simp [Place.parts]))

theorem loop_succ (h : RunsPadded V n) {condition : Expr Unit} {body : Stmt Unit}
    (hσ : σ.Padded V φ σ') (hinside : σ.Inside φ σ' ctx ctx') (hstays : Stays body)
    (hcondition : V ctx' (.expr condition)) (hbody : V ctx' (.stmt body)) :
    (Stmt.loop (n + 1) (condition.resolve ctx) (body.resolve ctx) σ).Padded V φ σ σ'
      (Stmt.loop (n + 1) (condition.resolve ctx') (body.resolve ctx') σ') := by
  simp only [Stmt.loop]
  refine (h.eval hσ hinside hcondition).bind ?_
  intro v φ₁ σ₁ σ₁' honward hσ₁
  have hinside₁ := honward.inside hinside
  split
  · refine (h.exec hσ₁ hinside₁ (.inr hstays) hbody).bind ?_
    intro c φ₂ σ₂ σ₂' honward' hσ₂
    cases c with
    | normal => exact h.loop hσ₂ (honward'.inside hinside₁) hstays hcondition hbody
    | returned v => exact hσ₂.ok _
  · exact hσ₁.ok _

end RunsPadded

/-- The evaluator takes no notice of spare scopes. -/
theorem runsPadded {V : Context → Place → Prop} (hwalked : Walked V) (n : Nat) :
    RunsPadded V n := by
  induction n with
  | zero =>
      constructor <;> intros <;>
        simp only [Expr.eval, Expr.evalAll, Value.call, Value.apply, Function.apply,
          Stmt.execScope, Stmt.execAll, Stmt.exec, Stmt.loop] <;> exact .outOfFuel
  | succ n ih =>
      exact ⟨ih.eval_succ hwalked, ih.evalAll_succ hwalked, ih.call_succ, ih.apply_succ,
        ih.invoke_succ hwalked, ih.scope_succ, ih.execAll_succ hwalked, ih.exec_succ hwalked,
        ih.loop_succ⟩

end Lox
