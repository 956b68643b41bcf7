import Lox.Proofs.Eval.Activation
import Lox.Proofs.Eval.Leaves
import Lox.Proofs.Resolution.Initializers
import Lox.Proofs.Soundness.Statements

/-!
# Where names come from

Names are never unbound, so of a name that a scope binds one can ask which task has bound it. It is
a declaration, the call of a function with parameters, the creation of a scope for `this` or
`super`, or, inside of its own initializer, an assignment to a local variable. Each step adds just
the names that its task introduces, and so does every run for the tasks that it comes to.
-/

namespace Lox

open Resolution Eval

variable {V : Context → Place → Prop} {α : Type}

/-- The assignment stands in the initializer of the local variable that it assigns, in the innermost
of the scopes around both. -/
def BindsOwn (V : Context → Place → Prop) (name : Token) (site : Site) (value : Expr Site) : Prop :=
  site = some 0 ∧ ∃ ctx node, ctx.locate name.lexeme = site ∧ value = node.resolve ctx ∧
    InInitializer V name.lexeme ctx (.expr (.assign name () node))

/-- The task binds a method to its receiver. -/
def Task.bindsThis : Task → Bool
  | .eval (.get _ _) | .eval (.super _ _ _) | .apply (.class _) _ => true
  | _ => false

/-- What binds a name in a scope that did not bind it. -/
inductive Introduces (V : Context → Place → Prop) : ScopeId → Bytes → Task → State → Prop where
  | var {σ : State} {name : Token} {init : Option (Expr Site)} :
      Introduces V σ.env name.lexeme (.exec (.var name init)) σ
  | function {σ : State} {decl : FunctionDecl Site} :
      Introduces V σ.env decl.name.lexeme (.exec (.function decl)) σ
  | class {σ : State} {name : Token} {superclass : Option (Token × Site)}
      {methods : List (FunctionDecl Site)} :
      Introduces V σ.env name.lexeme (.exec (.class name superclass methods)) σ
  | parameter {σ : State} {f : Function} {arguments : List Value} {param : Token}
      (hparam : param ∈ f.decl.params) :
      Introduces V σ.scopes.next param.lexeme
        (.scope f.decl.body f.closure (parameters f arguments)) σ
  | this {σ : State} {t : Task} {id : ScopeId} (ht : t.bindsThis = true)
      (hnew : σ.scopes.next ≤ id) : Introduces V id thisName t σ
  | super {σ : State} {name : Token} {use : Token × Site} {methods : List (FunctionDecl Site)} :
      Introduces V σ.scopes.next superName (.exec (.class name (some use) methods)) σ
  | initializer {σ : State} {name : Token} {site : Site} {value : Expr Site}
      (hown : BindsOwn V name site value) :
      Introduces V σ.env name.lexeme (.eval (.assign name site value)) σ

def IntroducedBy (V : Context → Place → Prop) (tasks : List (Task × State)) (id : ScopeId)
    (name : Bytes) : Prop :=
  ∃ p ∈ tasks, Introduces V id name p.1 p.2

namespace State

/-- Names that are bound in the second state and not in the first are among those added. -/
def Adds (added : ScopeId → Bytes → Prop) (before after : State) : Prop :=
  ∀ id name, (after.scopes.bound? id name).isSome →
    (before.scopes.bound? id name).isSome ∨ added id name

section Adds

variable {added added' : ScopeId → Bytes → Prop} {a b c : State}

theorem Adds.of_scopes_eq (h : b.scopes = a.scopes) : a.Adds added b := by
  intro id name hbound
  rw [h] at hbound
  exact .inl hbound

theorem Adds.refl (σ : State) : σ.Adds added σ :=
  .of_scopes_eq rfl

theorem Adds.trans (h : a.Adds added b) (h' : b.Adds added c) : a.Adds added c :=
  fun id name hbound => (h' id name hbound).elim (h id name) .inr

theorem Adds.mono (h : a.Adds added b) (hadded : ∀ id name, added id name → added' id name) :
    a.Adds added' b :=
  fun id name hbound => (h id name hbound).imp_right (hadded id name)

theorem adds_define (σ : State) {id : ScopeId} {name : Bytes} (v : Value)
    (h : (σ.scopes.bound? id name).isSome ∨ added id name) : σ.Adds added (σ.define id name v) := by
  intro other used hbound
  rw [State.define, Scopes.bound?_define] at hbound
  split at hbound
  case isTrue hsame =>
    obtain ⟨rfl, rfl, -⟩ := hsame
    exact h
  case isFalse => exact .inl hbound

theorem adds_newScope (σ : State) (parent : ScopeId) {bindings : Bindings Value}
    (h : ∀ name v, bindings.lookup name = some v → added σ.scopes.next name) :
    σ.Adds added (σ.newScope parent bindings).2 := by
  intro id name hbound
  rw [State.newScope, Scopes.bound?_push] at hbound
  split at hbound
  case isTrue hsame =>
    obtain ⟨v, hv⟩ := Option.isSome_iff_exists.mp hbound
    rw [hsame]
    exact .inr (h name v hv)
  case isFalse => exact .inl hbound

theorem adds_bindMethod (σ : State) (f : Function) (receiver : ObjectId)
    (h : added σ.scopes.next thisName) : σ.Adds added (σ.bindMethod f receiver).2 := by
  refine adds_newScope σ f.closure fun name v hv => ?_
  rw [List.lookup_cons] at hv
  split at hv
  case h_1 heq => rwa [eq_of_beq heq]
  case h_2 => cases hv

theorem adds_boundMethod (σ : State) (f : Function) (receiver : ObjectId)
    (h : added σ.scopes.next thisName) : σ.Adds added (σ.boundMethod f receiver).2 :=
  (adds_bindMethod σ f receiver h).trans (.of_scopes_eq rfl)

end Adds

@[simp]
theorem scopes_tick (σ : State) : σ.tick.2.scopes = σ.scopes := by
  unfold State.tick
  split <;> rfl

end State

/-! ### Steps -/

/-- A computation from `before` on whose own steps add nothing but such names. -/
def Work.Adds (V : Context → Place → Prop) (added : ScopeId → Bytes → Prop) : State → Work α → Prop
  | before, .done o => o.Leaves (before.Adds added)
  | before, .enter t σ leave next =>
      before.Adds added σ ∧ ∀ σ', (leave σ').scopes = σ'.scopes ∧
        ∀ a, (soundness V).ok t σ a σ' → (next a (leave σ')).Adds V added (leave σ')

section Rules

variable {added : ScopeId → Bytes → Prop} {before σ : State}

theorem adds_ask {t : Task} {next : t.Answer → State → Work α} (hstart : before.Adds added σ)
    (hnext : ∀ a σ', Follows V σ σ' → (next a σ').Adds V added σ') :
    (Work.ask t σ next).Adds V added before :=
  ⟨hstart, fun σ' => ⟨rfl, fun a hok => hnext a σ' hok.1⟩⟩

theorem adds_ok {a : α} {σ' : State} (h : σ'.scopes = σ.scopes) :
    (Work.done (.ok a σ')).Adds V added σ :=
  Outcome.leaves_ok.mpr (.of_scopes_eq h)

theorem adds_answer {t : Task} : (Work.answer t σ).Adds V added σ :=
  adds_ask (.refl σ) fun _ _ _ => adds_ok rfl

theorem adds_unchanged {o : Outcome α} (h : o.Leaves (· = σ)) :
    (Work.done o).Adds V added σ := by
  refine h.mono fun σ' hσ' => ?_
  subst hσ'
  exact .refl _

end Rules

/-! ### Assignments -/

/-- In the scope of a local variable that is assigned its name is bound, unless the assignment stands
in its initializer. -/
theorem bound_of_locate (hwalked : Walked V) {ctx : Context} {name : Token} {node : Expr Unit}
    (hvisit : V ctx (.expr (.assign name () node)))
    (hexplained : Explained V ctx (.expr (.assign name () node))) {σ : State}
    (hmatches : Matches σ.scopes σ.env ctx.scopes) {distance : Nat}
    (hlocate : ctx.locate name.lexeme = some distance) :
    ∃ scope, σ.scopes.ancestor? σ.env distance = some scope ∧
      ((σ.scopes.bound? scope name.lexeme).isSome ∨
        scope = σ.env ∧ BindsOwn V name (some distance) (node.resolve ctx)) := by
  by_cases hinner : ctx.inner? name.lexeme = some false
  · have hzero : distance = 0 := by
      unfold Context.inner? at hinner
      unfold Context.locate at hlocate
      cases hscopes : ctx.scopes with
      | nil => simp [hscopes] at hinner
      | cons frame outer =>
          simp only [hscopes] at hinner hlocate
          simpa [List.findIdx?_cons, hinner, eq_comm] using hlocate
    subst hzero
    exact ⟨σ.env, rfl, .inr ⟨rfl, rfl, ctx, node, hlocate, rfl, hexplained _ hinner⟩⟩
  · have hready := readyAt_of_locate (hwalked.checked hvisit).settled hinner hlocate
    obtain ⟨scope, v, hscope, -, hv⟩ := hmatches.readyAt hready
    exact ⟨scope, hscope, .inl (Option.isSome_iff_exists.mpr ⟨v, hv⟩)⟩

theorem adds_assign (hwalked : Walked V) {ctx : Context} {name : Token} {node : Expr Unit}
    (hvisit : V ctx (.expr (.assign name () node)))
    (hexplained : Explained V ctx (.expr (.assign name () node))) {σ σ₁ : State}
    (hmatches : Matches σ.scopes σ.env ctx.scopes) (hσ₁ : Follows V σ σ₁) (v : Value) :
    (Work.done (assign name (ctx.locate name.lexeme) v σ₁)).Adds V
      (fun id used => Introduces V id used
        (.eval (.assign name (ctx.locate name.lexeme) (node.resolve ctx))) σ) σ₁ := by
  cases hlocate : ctx.locate name.lexeme with
  | none =>
      rw [assign_global hσ₁.sound]
      split
      case h_1 hbound =>
        refine Outcome.leaves_ok.mpr (State.adds_define _ v (.inl ?_))
        exact Option.isSome_iff_exists.mpr ⟨_, hbound⟩
      case h_2 => exact Outcome.leaves_error.mpr (.refl _)
  | some distance =>
      obtain ⟨scope, hscope, hbound⟩ := bound_of_locate hwalked hvisit hexplained hmatches hlocate
      rw [hσ₁.assign_local hmatches hlocate hscope]
      refine Outcome.leaves_ok.mpr (State.adds_define _ v ?_)
      rcases hbound with hbound | ⟨rfl, hown⟩
      · exact .inl (hσ₁.grows.scopes.bound _ _ hbound)
      · exact .inr (.initializer hown)

/-! ### Tasks -/

section Tasks

variable (hwalked : Walked V) (hexplained : ∀ {ctx p}, V ctx p → Explained V ctx p) {σ : State}

include hwalked hexplained in
theorem adds_evalWork {ctx : Context} {e : Expr Unit} (hvisit : V ctx (.expr e))
    (hmatches : Matches σ.scopes σ.env ctx.scopes) :
    (Task.evalWork (e.resolve ctx) σ).Adds V
      (fun id name => Introduces V id name (.eval (e.resolve ctx)) σ) σ := by
  cases e with
  | assign name site value =>
      simp only [Expr.resolve, Task.evalWork]
      refine adds_ask (.refl σ) fun v σ₁ hσ₁ => ?_
      exact adds_assign hwalked hvisit (hexplained hvisit) hmatches hσ₁ v
  | binary left operator right =>
      simp only [Expr.resolve, Task.evalWork]
      refine adds_ask (.refl σ) fun a σ₁ _ => adds_ask (.refl σ₁) fun b σ₂ _ => ?_
      exact adds_unchanged (operates_binary operator a b).leaves
  | call callee paren arguments =>
      simp only [Expr.resolve, Task.evalWork]
      exact adds_ask (.refl σ) fun f σ₁ _ => adds_ask (.refl σ₁) fun vs σ₂ _ => adds_answer
  | get object name =>
      simp only [Expr.resolve, Task.evalWork]
      refine adds_ask (.refl σ) fun v σ₁ hσ₁ => (leaves_get v name).mono fun σ' hσ' => ?_
      rcases hσ' with rfl | ⟨id, o, f, -, -, -, rfl⟩
      · exact .refl _
      · exact State.adds_boundMethod σ₁ f id (.this rfl hσ₁.grows.scopes.next)
  | group inner => exact adds_answer
  | literal value => exact adds_ok rfl
  | logical left operator right =>
      simp only [Expr.resolve, Task.evalWork]
      refine adds_ask (.refl σ) fun a σ₁ _ => ?_
      split
      · exact adds_ok rfl
      · exact adds_answer
  | set object name value =>
      simp only [Expr.resolve, Task.evalWork]
      refine adds_ask (.refl σ) fun o σ₁ _ => ?_
      split
      case h_1 id => exact adds_ask (.refl σ₁) fun v σ₂ _ => adds_ok rfl
      case h_2 => exact adds_unchanged (leaves_fail _ _)
  | «super» keyword site method =>
      refine (leaves_super _ method).mono fun σ' hσ' => ?_
      rcases hσ' with rfl | ⟨base, receiver, f, -, -, -, rfl⟩
      · exact .refl _
      · exact State.adds_boundMethod σ f receiver (.this rfl (Nat.le_refl _))
  | this keyword site => exact adds_unchanged (leaves_read keyword _)
  | unary operator operand =>
      simp only [Expr.resolve, Task.evalWork]
      exact adds_ask (.refl σ) fun v σ₁ _ => adds_unchanged (operates_unary operator v).leaves
  | read name site => exact adds_unchanged (leaves_read name _)

theorem adds_applyWork (callee : Value) (arguments : List Value) :
    (Task.applyWork callee arguments σ).Adds V
      (fun id name => Introduces V id name (.apply callee arguments) σ) σ := by
  cases callee with
  | function id =>
      simp only [Task.applyWork]
      split
      · exact adds_answer
      · exact adds_unchanged (Outcome.leaves_broken.mpr rfl)
  | clock =>
      refine leaves_readClock.mono fun σ' hσ' => .of_scopes_eq ?_
      rw [hσ', State.scopes_tick]
  | «class» id =>
      simp only [Task.applyWork]
      split
      case h_1 init hinit =>
        refine adds_ask (.trans (.of_scopes_eq rfl) (State.adds_bindMethod _ init _ ?_))
          fun _ _ _ => adds_ok rfl
        exact .this rfl (Nat.le_refl _)
      case h_2 => exact adds_ok rfl
  | _ => exact adds_unchanged (Outcome.leaves_broken.mpr rfl)

theorem adds_scope (body : List (Stmt Site)) (parent : ScopeId) (bindings : Bindings Value)
    (h : (Task.scope body parent bindings).Shaped) :
    (Task.work (.scope body parent bindings) σ).Adds V
      (fun id name => Introduces V id name (.scope body parent bindings) σ) σ := by
  refine ⟨?_, fun σ' => ⟨rfl, fun c _ => adds_ok rfl⟩⟩
  refine (State.adds_newScope σ parent fun name v hv => ?_).trans (.of_scopes_eq rfl)
  rcases h with rfl | ⟨f, arguments, rfl, rfl, rfl⟩
  · cases hv
  · obtain ⟨⟨param, hparam, rfl⟩, -⟩ := lookup_parameters hv
    exact .parameter hparam

include hwalked in
theorem adds_class {ctx : Context} {name : Token} {superclass : Option (Token × Site)}
    {methods : List (FunctionDecl Site)}
    (hpre : (soundness V).pre (.exec (.class name superclass methods)) σ)
    (hmatches : Matches σ.scopes σ.env ctx.scopes) :
    (Task.execWork (.class name superclass methods) σ).Adds V
      (fun id used => Introduces V id used (.exec (.class name superclass methods)) σ) σ := by
  let σ₁ := σ.define σ.env name.lexeme .nil
  have hname : Introduces V σ.env name.lexeme (.exec (.class name superclass methods)) σ := .class
  have hdefine : σ.Adds (fun id used =>
      Introduces V id used (.exec (.class name superclass methods)) σ) σ₁ :=
    State.adds_define σ .nil (.inr hname)
  have hbound : (σ₁.scopes.bound? σ₁.env name.lexeme).isSome :=
    σ.scopes.isSome_bound?_define (hmatches.lt_next hpre.1.nonempty) _ _
  have hends := classEnds hbound (soundness_holds hwalked _ _ hpre)
  change (Task.classWork name superclass methods σ₁).Leaves _
  generalize Task.classWork name superclass methods σ₁ = o at hends
  cases hends with
  | made base hbase =>
      refine Outcome.leaves_ok.mpr (hdefine.trans (.trans ?_ (State.adds_define _ _ (.inr hname))))
      cases base with
      | none => exact .of_scopes_eq rfl
      | some id =>
          obtain ⟨use, rfl, -⟩ := hbase id rfl
          refine (State.adds_newScope σ₁ σ₁.env fun used v hv => ?_).trans (.of_scopes_eq rfl)
          rw [List.lookup_cons] at hv
          split at hv
          case h_1 heq =>
            have hnext : σ₁.scopes.next = σ.scopes.next := Scopes.next_define _ _ _ _
            rw [eq_of_beq heq, hnext]
            exact .super
          case h_2 => cases hv
  | unread huse hread => exact Outcome.leaves_error.mpr hdefine
  | notClass huse hread hv => exact Outcome.leaves_error.mpr hdefine

include hwalked in
theorem adds_execWork {ctx : Context} {s : Stmt Site} (hpre : (soundness V).pre (.exec s) σ)
    (hmatches : Matches σ.scopes σ.env ctx.scopes) :
    (Task.execWork s σ).Adds V (fun id name => Introduces V id name (.exec s) σ) σ := by
  cases s with
  | block body => exact adds_answer
  | «class» name superclass methods => exact adds_class hwalked hpre hmatches
  | expr e => exact adds_ask (.refl σ) fun v σ₁ _ => adds_ok rfl
  | function decl =>
      have hname : Introduces V σ.env decl.name.lexeme (.exec (.function decl)) σ := .function
      exact Outcome.leaves_ok.mpr
        (.trans (.of_scopes_eq rfl) (State.adds_define _ _ (.inr hname)))
  | ifThen condition thenBranch =>
      refine adds_ask (.refl σ) fun v σ₁ _ => ?_
      split
      · exact adds_answer
      · exact adds_ok rfl
  | ifElse condition thenBranch elseBranch =>
      refine adds_ask (.refl σ) fun v σ₁ _ => ?_
      split <;> exact adds_answer
  | print e => exact adds_ask (.refl σ) fun v σ₁ _ => adds_ok rfl
  | «return» keyword value =>
      cases value with
      | none => exact adds_ok rfl
      | some e => exact adds_ask (.refl σ) fun v σ₁ _ => adds_ok rfl
  | var name init =>
      cases init with
      | none => exact Outcome.leaves_ok.mpr (State.adds_define σ .nil (.inr .var))
      | some e =>
          refine adds_ask (.refl σ) fun v σ₁ hσ₁ => ?_
          refine Outcome.leaves_ok.mpr (State.adds_define σ₁ v (.inr ?_))
          rw [hσ₁.env]
          exact .var
  | «while» condition body => exact adds_answer

include hwalked hexplained in
/-- The names that a step adds are those that its task introduces. -/
theorem adds_work {t : Task} (hpre : (soundness V).pre t σ) (hshaped : t.Shaped) :
    (t.work σ).Adds V (fun id name => Introduces V id name t σ) σ := by
  cases t with
  | eval e =>
      obtain ⟨-, ctx, e, hvisit, rfl, hmatches⟩ := hpre
      exact adds_evalWork hwalked hexplained hvisit hmatches
  | evalAll es =>
      cases es with
      | nil => exact adds_ok rfl
      | cons e es =>
          exact adds_ask (.refl σ) fun v σ₁ _ => adds_ask (.refl σ₁) fun vs σ₂ _ => adds_ok rfl
  | call callee paren arguments =>
      simp only [Task.work]
      split
      · exact adds_unchanged (leaves_fail _ _)
      · exact ⟨.of_scopes_eq rfl, fun σ' => ⟨rfl, fun v _ => adds_ok rfl⟩⟩
  | apply callee arguments => exact adds_applyWork callee arguments
  | invoke f arguments =>
      exact adds_ask (.refl σ) fun c σ₁ _ => adds_unchanged (leaves_result f c)
  | scope body parent bindings => exact adds_scope body parent bindings hshaped
  | execAll ss =>
      cases ss with
      | nil => exact adds_ok rfl
      | cons s ss =>
          refine adds_ask (.refl σ) fun c σ₁ _ => ?_
          cases c with
          | normal => exact adds_answer
          | returned v => exact adds_ok rfl
  | exec s =>
      obtain ⟨-, ctx, node, -, -, hmatches⟩ := id hpre
      exact adds_execWork hwalked hpre hmatches
  | loop condition body =>
      refine adds_ask (.refl σ) fun v σ₁ _ => ?_
      split
      · refine adds_ask (.refl σ₁) fun c σ₂ _ => ?_
        cases c with
        | normal => exact adds_answer
        | returned v => exact adds_ok rfl
      · exact adds_ok rfl

end Tasks

/-! ### Runs -/

/-- The states of a run, and the one that it leaves, have only such names more than `before`. -/
structure State.Accounts (before : State) (added : ScopeId → Bytes → Prop) (o : Outcome α)
    (states : List State) : Prop where
  leaves : o.Leaves (before.Adds added)
  states : ∀ τ ∈ states, before.Adds added τ

section Runs

variable {added : ScopeId → Bytes → Prop}

section Accounts

variable {before σ : State} {o : Outcome α} {states later : List State}

theorem State.Accounts.onward (hstart : before.Adds added σ) (h : σ.Accounts added o states) :
    before.Accounts added o states :=
  ⟨h.leaves.mono fun _ hτ => hstart.trans hτ, fun τ hτ => hstart.trans (h.states τ hτ)⟩

theorem State.Accounts.cons (h : before.Accounts added o states) :
    before.Accounts added o (before :: states) :=
  ⟨h.leaves, List.forall_mem_cons.mpr ⟨.refl before, h.states⟩⟩

theorem State.Accounts.append (hstates : ∀ τ ∈ states, before.Adds added τ)
    (hlater : before.Accounts added o later) : before.Accounts added o (states ++ later) :=
  ⟨hlater.leaves, List.forall_mem_append.mpr ⟨hstates, hlater.states⟩⟩

theorem State.Accounts.mono (h : before.Accounts added o states)
    {added' : ScopeId → Bytes → Prop} (hadded : ∀ id name, added id name → added' id name) :
    before.Accounts added' o states :=
  ⟨h.leaves.mono fun _ hτ => hτ.mono hadded, fun τ hτ => (h.states τ hτ).mono hadded⟩

end Accounts

theorem IntroducedBy.append_left {tasks : List (Task × State)} {id : ScopeId} {name : Bytes}
    (h : IntroducedBy V tasks id name) (later : List (Task × State)) :
    IntroducedBy V (tasks ++ later) id name := by
  obtain ⟨p, hp, hintroduces⟩ := h
  exact ⟨p, List.mem_append_left later hp, hintroduces⟩

theorem IntroducedBy.append_right {later : List (Task × State)} {id : ScopeId} {name : Bytes}
    (h : IntroducedBy V later id name) (tasks : List (Task × State)) :
    IntroducedBy V (tasks ++ later) id name := by
  obtain ⟨p, hp, hintroduces⟩ := h
  exact ⟨p, List.mem_append_right tasks hp, hintroduces⟩

theorem Work.accounts_history (hholds : (soundness V).Holds) {n : Nat}
    (hwithin : ∀ t σ, (soundness V).pre t σ → t.Shaped →
      σ.Accounts (IntroducedBy V (t.trace n σ)) (t.run n σ) (t.history n σ))
    {w : Work α} {ok : α → State → Prop} {error : RuntimeError → State → Prop}
    (hmeets : w.Meets (soundness V) ok error) (honly : w.Only Task.Shaped)
    {own : ScopeId → Bytes → Prop} {before : State} (h : w.Adds V own before)
    (hown : ∀ id name, own id name → added id name)
    (htrace : ∀ id name, IntroducedBy V (w.trace (Task.run n) (Task.trace n)) id name →
      added id name) :
    before.Accounts added (w.run (Task.run n)) (w.history (Task.run n) (Task.history n)) := by
  induction w generalizing before with
  | done o =>
      have hleaves : o.Leaves (before.Adds added) := h.mono fun _ hτ => hτ.mono hown
      exact ⟨hleaves, fun τ hτ => hleaves τ (by simpa [Work.history] using hτ)⟩
  | enter t σ leave next ih =>
      obtain ⟨hpre, hnext, -⟩ := hmeets
      obtain ⟨hshaped, hothers⟩ := honly
      obtain ⟨hstart, hsteps⟩ := h
      have hend := hholds.run n hpre
      have hfirst := hwithin t σ hpre hshaped
      rw [Work.trace] at htrace
      have htask (τ : State) (hτ : σ.Adds (IntroducedBy V (t.trace n σ)) τ) :
          before.Adds added τ :=
        (hstart.mono hown).trans (hτ.mono fun id name hintroduced =>
          htrace id name (hintroduced.append_left _))
      have hleave (τ : State) (hτ : before.Adds added τ) : before.Adds added (leave τ) :=
        hτ.trans (.of_scopes_eq (hsteps τ).1)
      have hstates (τ : State) (hτ : τ ∈ t.history n σ) : before.Adds added τ :=
        htask τ (hfirst.states τ hτ)
      rw [Work.run_enter, Work.history]
      cases hrun : t.run n σ with
      | ok a σ' =>
          rw [hrun] at hend hfirst htrace
          have hleft := hleave σ' (htask σ' (Outcome.leaves_ok.mp hfirst.leaves))
          have hrest := ih a (leave σ') (hnext a σ' ⟨n, hrun⟩ hend) (hothers a (leave σ'))
            ((hsteps σ').2 a hend) fun id name hintroduced =>
              htrace id name (hintroduced.append_right _)
          exact .append hstates (hrest.cons.onward hleft)
      | error e σ' =>
          rw [hrun] at hfirst
          have hleft := hleave σ' (htask σ' (Outcome.leaves_error.mp hfirst.leaves))
          exact .append hstates ⟨Outcome.leaves_error.mpr hleft, by simpa using hleft⟩
      | broken σ' =>
          rw [hrun] at hend
          exact hend.elim
      | outOfFuel => exact .append hstates ⟨Outcome.leaves_outOfFuel, by simp⟩

theorem Task.only_shaped (t : Task) (σ : State) : (t.work σ).Only Task.Shaped :=
  (t.only_within σ).mono fun _ hwithin => hwithin.shaped

theorem Task.shaped_of_trace (n : Nat) {t : Task} {σ : State} (h : t.Shaped) :
    ∀ p ∈ t.trace n σ, p.1.Shaped := by
  induction n generalizing t σ with
  | zero => simpa [Task.trace] using h
  | succ n ih =>
      rw [Task.trace, List.forall_mem_cons]
      refine ⟨h, fun p hp => ?_⟩
      obtain ⟨u, τ, hu, hp⟩ := (t.only_shaped σ).mem_trace hp
      exact ih hu p hp

/-- Every name that a run binds is introduced by one of the tasks that it comes to. -/
theorem Task.accounts_history (hwalked : Walked V)
    (hexplained : ∀ {ctx p}, V ctx p → Explained V ctx p) (n : Nat) {t : Task} {σ : State}
    (hpre : (soundness V).pre t σ) (hshaped : t.Shaped) :
    σ.Accounts (IntroducedBy V (t.trace n σ)) (t.run n σ) (t.history n σ) := by
  induction n generalizing t σ with
  | zero =>
      rw [Task.run_zero, Task.history]
      exact State.Accounts.cons ⟨Outcome.leaves_outOfFuel, by simp⟩
  | succ n ih =>
      have hholds := soundness_holds hwalked
      rw [Task.run_succ, Task.history, Task.trace]
      refine .cons (Work.accounts_history hholds
        (fun t σ hpre hshaped => ih hpre hshaped) (hholds t σ hpre) (t.only_shaped σ)
        (adds_work hwalked hexplained hpre hshaped) ?_ ?_)
      · exact fun id name hintroduces => ⟨(t, σ), List.mem_cons_self, hintroduces⟩
      · exact fun id name hintroduced => hintroduced.append_right [(t, σ)]

end Runs

end Lox
