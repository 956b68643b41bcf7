import Lox.Proofs.Soundness.Declarations

/-!
# Soundness of evaluation

The contract under which the evaluator works. A task is set off in a sound state; code is entered
only where the scopes are instances of those around it, and a function is invoked only with an
argument for each of its parameters. Then no computation breaks, and what it leaves behind is sound.
-/

namespace Lox

open Resolution Eval

variable {T : Task → State → Prop} {V : Reach}

def Completion.Valid (σ : State) : Completion → Prop
  | .normal => True
  | .returned v => v.Valid σ

/-- The code was reached, and the scopes here are instances of those around it there. -/
def Entered {α β : Type} (V : Reach) (place : α → Place) (bind : Context → α → β) (σ : State)
    (code : β) : Prop :=
  ∃ ctx a, V.Here σ.scopes σ.env ctx (place a) ∧ code = bind ctx a ∧
    Matches σ.scopes σ.env ctx.scopes

/-- The walk goes on from a place that was reached to the body, one scope further in, and the bindings
make a new scope an instance of that one. -/
def ScopeReady (V : Reach) (σ : State) (body : List (Stmt Site)) (parent : ScopeId)
    (bindings : Bindings Value) : Prop :=
  ∃ ctx p inner ss frame, V.Here σ.scopes parent ctx p ∧ (inner, .stmts ss) ∈ p.next ctx ∧
    inner.scopes = frame :: p.around ctx ∧ body = Stmt.resolveAll inner ss ∧
    Matches σ.scopes parent (p.around ctx) ∧
    (∀ name, frame.lookup name = some true → (bindings.lookup name).isSome) ∧ σ.Bindable bindings

def LoopReady (V : Reach) (σ : State) (condition : Expr Site) (body : Stmt Site) : Prop :=
  ∃ ctx e s, V.Here σ.scopes σ.env ctx (.expr e) ∧ V.Here σ.scopes σ.env ctx (.stmt s) ∧
    condition = e.resolve ctx ∧ body = s.resolve ctx ∧ Matches σ.scopes σ.env ctx.scopes

/-- When a task may be set off in a sound state. -/
def Task.Ready (V : Reach) (σ : State) : Task → Prop
  | .eval e => Entered V .expr Expr.resolve σ e
  | .evalAll es => Entered V .arguments Expr.resolveAll σ es
  | .call callee _ arguments => callee.Valid σ ∧ ∀ v ∈ arguments, v.Valid σ
  | .apply callee arguments =>
      callee.Valid σ ∧ (∀ v ∈ arguments, v.Valid σ) ∧ arity? callee σ = some arguments.length
  | .invoke f arguments =>
      FunctionSound V σ.scopes f ∧ (∀ v ∈ arguments, v.Valid σ) ∧
        f.decl.params.length = arguments.length
  | .scope body parent bindings => ScopeReady V σ body parent bindings
  | .execAll ss => Entered V .stmts Stmt.resolveAll σ ss
  | .exec s => Entered V .stmt Stmt.resolve σ s
  | .loop condition body => LoopReady V σ condition body

/-- What an answer is worth in the state that comes with it. A statement that was executed to its
end has bound what it declares. -/
def Task.Settled (before : State) : (t : Task) → t.Answer → State → Prop
  | .eval _, v, σ | .call _ _ _, v, σ | .apply _ _, v, σ | .invoke _ _, v, σ => Value.Valid σ v
  | .evalAll es, vs, σ => (∀ v ∈ vs, Value.Valid σ v) ∧ vs.length = es.length
  | .scope _ _ _, c, σ | .execAll _, c, σ | .loop _ _, c, σ => Completion.Valid σ c
  | .exec s, c, σ =>
      Completion.Valid σ c ∧ (c = .normal → ∀ ctx : Context,
        Matches before.scopes before.env ctx.scopes → Matches σ.scopes σ.env (ctx.after s).scopes)

def soundness (V : Reach) : Contract where
  pre t σ := σ.Sound V ∧ t.Ready V σ
  ok t σ a σ' := Follows V σ σ' ∧ t.Settled σ a σ'
  error _ σ _ σ' := Follows V σ σ'

/-! ### Steps of the contract -/

theorem Follows.matches {σ σ' : State} (h : Follows V σ σ') {frames : List Frame}
    (hmatches : Matches σ.scopes σ.env frames) : Matches σ'.scopes σ'.env frames := by
  rw [h.env]
  exact hmatches.grows h.grows.scopes

/-- What is reached stays so where the scopes are the same. -/
theorem Follows.here {σ σ' : State} (h : Follows V σ σ') {ctx : Context} {p : Place}
    (hvisit : V.Here σ.scopes σ.env ctx p) {frames : List Frame}
    (hmatches : Matches σ.scopes σ.env frames)
    (hlength : frames.length = (p.around ctx).length) : V.Here σ'.scopes σ'.env ctx p := by
  rw [h.env]
  exact hvisit.grows h.grows.scopes hmatches hlength

theorem Matches.declare {scopes : Scopes} {id : ScopeId} {ctx : Context}
    (h : Matches scopes id ctx.scopes) (name : Token) :
    Matches scopes id (ctx.declare name).scopes := by
  unfold Context.declare Context.mark
  cases hscopes : ctx.scopes with
  | nil => simpa [hscopes] using h
  | cons frame outer =>
      rw [hscopes] at h
      refine ⟨h.1, fun used hused => h.2.1 used ?_, h.2.2⟩
      rw [List.lookup_cons] at hused
      split at hused
      · cases hused
      · exact hused

/-- Annotations do not matter for what a statement declares. -/
theorem after_resolve (ctx outer : Context) :
    (s : Stmt Unit) → ctx.after (s.resolve outer) = ctx.after s
  | .block _ | .class _ _ _ | .expr _ | .print _ | .return _ _ | .var _ _ => rfl
  | .function decl => by rw [Stmt.resolve, Context.after, Context.after, name_resolve]
  | .ifThen _ thenBranch => after_resolve ctx outer thenBranch
  | .ifElse _ thenBranch elseBranch => by
      rw [Stmt.resolve, Context.after, Context.after, after_resolve ctx outer thenBranch]
      exact after_resolve _ _ elseBranch
  | .while _ body => after_resolve ctx outer body

theorem method?_congr (σ σ' : State) (h : σ'.classes = σ.classes) (id : ClassId) (name : Bytes) :
    σ'.method? id name = σ.method? id name := by
  induction id using Nat.strongRecOn with
  | ind id ih =>
      rw [State.method?, State.method?, h]
      split
      · rfl
      · split
        · rfl
        · split
          · split
            · exact ih _ (by assumption)
            · rfl
          · rfl

theorem arity?_congr (σ σ' : State) (hclasses : σ'.classes = σ.classes)
    (hfunctions : σ'.functions = σ.functions) (v : Value) : arity? v σ' = arity? v σ := by
  cases v with
  | function id => simp only [arity?, hfunctions]
  | «class» id => simp only [arity?, method?_congr σ σ' hclasses]
  | _ => rfl

theorem arity?_of_not_refused {callee : Value} {given : Nat} {σ : State}
    (h : refusal? callee given σ = none) : arity? callee σ = some given := by
  unfold refusal? at h
  split at h
  · cases h
  · split at h
    · cases h
    · rename_i heq
      rw [Decidable.not_not.mp heq]
      assumption

/-- A computation that keeps the contract and whose end follows on `before`. -/
def Ends {α : Type} (V : Reach) (before : State) (w : Work α)
    (ok : α → State → Prop) : Prop :=
  w.Meets (soundness V) (fun a σ => Follows V before σ ∧ ok a σ) fun _ σ => Follows V before σ

section Rules

variable {α : Type} {before σ : State} {ctx : Context} {ok : α → State → Prop}

theorem ends_done {o : Outcome α} (hbefore : Follows V before σ)
    (h : o.Meets (fun a σ' => Follows V σ σ' ∧ ok a σ') fun _ σ' => Follows V σ σ') :
    Ends V before (.done o) ok :=
  Outcome.Meets.mono h (fun _ _ h => ⟨hbefore.trans h.1, h.2⟩) fun _ _ h => hbefore.trans h

theorem ends_ok {a : α} (hbefore : Follows V before σ) (ha : ok a σ) :
    Ends V before (.done (.ok a σ)) ok :=
  ⟨hbefore, ha⟩

theorem ends_ask {t : Task} {next : t.Answer → State → Work α} (hbefore : Follows V before σ)
    (hready : t.Ready V σ)
    (hnext : ∀ a σ', Follows V σ σ' → t.Settled σ a σ' → Ends V before (next a σ') ok) :
    Ends V before (.ask t σ next) ok :=
  Work.meets_ask ⟨hbefore.sound, hready⟩ (fun a σ' _ h => hnext a σ' h.1 h.2)
    fun _ _ h => hbefore.trans h

theorem ends_answer {t : Task} {ok : t.Answer → State → Prop} (hbefore : Follows V before σ)
    (hready : t.Ready V σ) (hok : ∀ a σ', Follows V σ σ' → t.Settled σ a σ' → ok a σ') :
    Ends V before (.answer t σ) ok :=
  ends_ask hbefore hready fun a σ' hfollows ha =>
    ends_ok (hbefore.trans hfollows) (hok a σ' hfollows ha)

theorem ends_eval {e : Expr Unit} {next : Value → State → Work α} (hbefore : Follows V before σ)
    (hvisit : V.Here σ.scopes σ.env ctx (.expr e)) (hmatches : Matches σ.scopes σ.env ctx.scopes)
    (hnext : ∀ v σ', Follows V σ σ' → v.Valid σ' → Ends V before (next v σ') ok) :
    Ends V before (.ask (.eval (e.resolve ctx)) σ next) ok :=
  ends_ask hbefore ⟨ctx, e, hvisit, rfl, hmatches⟩ hnext

end Rules

/-! ### Expressions -/

theorem ends_evalWork (hclosed : V.Closed T) {σ : State} (h : σ.Sound V) {ctx : Context}
    {e : Expr Unit} (hvisit : V.Here σ.scopes σ.env ctx (.expr e))
    (hmatches : Matches σ.scopes σ.env ctx.scopes) (ht : T (.eval (e.resolve ctx)) σ) :
    Ends V σ (Task.evalWork (e.resolve ctx) σ) fun v σ' => v.Valid σ' := by
  have hchecked := hclosed.checked hvisit
  have hoperand {σ' : State} (hσ' : Follows V σ σ') {p : Place} (hp : p ∈ Place.operands e) :
      V.Here σ'.scopes σ'.env ctx p := by
    exact hσ'.here (hclosed.here hvisit (List.mem_map_of_mem hp)) hmatches
      (Place.declaresMore_operands e p hp).length_eq.symm
  cases e with
  | assign name site value =>
      simp only [Expr.resolve, Task.evalWork]
      refine ends_eval h.follows (hoperand h.follows (by simp [Place.operands])) hmatches ?_
      intro v σ₁ hσ₁ hv
      exact ends_done hσ₁ (yields_assign hσ₁.sound hchecked.wellFormed.fine (hσ₁.matches hmatches) hv)
  | binary left operator right =>
      simp only [Expr.resolve, Task.evalWork]
      refine ends_eval h.follows (hoperand h.follows (by simp [Place.operands])) hmatches ?_
      intro a σ₁ hσ₁ ha
      refine ends_eval hσ₁ (hoperand hσ₁ (by simp [Place.operands])) (hσ₁.matches hmatches) ?_
      intro b σ₂ hσ₂ hb
      exact ends_done (hσ₁.trans hσ₂) ((operates_binary operator a b).yields hσ₂.sound)
  | call callee paren arguments =>
      simp only [Expr.resolve, Task.evalWork]
      refine ends_eval h.follows (hoperand h.follows (by simp [Place.operands])) hmatches ?_
      intro f σ₁ hσ₁ hf
      refine ends_ask hσ₁
        ⟨ctx, arguments, hoperand hσ₁ (by simp [Place.operands]), rfl, hσ₁.matches hmatches⟩ ?_
      intro vs σ₂ hσ₂ hvs
      refine ends_answer (hσ₁.trans hσ₂) ⟨hf.grows hσ₂.grows, hvs.1⟩ fun v σ₃ _ hv => hv
  | get object name =>
      simp only [Expr.resolve, Task.evalWork]
      refine Work.meets_ask ⟨h, ctx, object, hoperand h.follows (by simp [Place.operands]), rfl,
        hmatches⟩ (fun v σ₁ hgives hok => ?_) fun _ _ hσ₁ => hσ₁
      obtain ⟨hσ₁, hv⟩ := hok
      refine ends_done hσ₁ (yields_get hclosed hσ₁.sound hv name fun f receiver hreceiver hget => ?_)
      subst hreceiver
      exact .property ht hgives hget
  | group inner =>
      simp only [Expr.resolve, Task.evalWork]
      exact ends_answer h.follows
        ⟨ctx, inner, hoperand h.follows (by simp [Place.operands]), rfl, hmatches⟩
        fun v σ' _ hv => hv
  | literal value => exact ends_ok h.follows (value.valid_value σ)
  | logical left operator right =>
      simp only [Expr.resolve, Task.evalWork]
      refine ends_eval h.follows (hoperand h.follows (by simp [Place.operands])) hmatches ?_
      intro a σ₁ hσ₁ ha
      split
      · exact ends_ok hσ₁ ha
      · exact ends_answer hσ₁
          ⟨ctx, right, hoperand hσ₁ (by simp [Place.operands]), rfl, hσ₁.matches hmatches⟩
          fun v σ' _ hv => hv
  | set object name value =>
      simp only [Expr.resolve, Task.evalWork]
      refine ends_eval h.follows (hoperand h.follows (by simp [Place.operands])) hmatches ?_
      intro o σ₁ hσ₁ ho
      split
      case h_1 id =>
        refine ends_eval hσ₁ (hoperand hσ₁ (by simp [Place.operands])) (hσ₁.matches hmatches) ?_
        intro v σ₂ hσ₂ hv
        have hgrows := σ₂.grows_setField id name.lexeme v
        exact ends_ok ((hσ₁.trans hσ₂).trans ⟨hσ₂.sound.setField _ _ hv, hgrows, rfl⟩)
          (hv.grows hgrows)
      case h_2 => exact ends_done hσ₁ (yields_fail hσ₁.sound _ _)
  | «super» keyword site method => exact ends_done h.follows (yields_super hclosed h hchecked hmatches ht)
  | this keyword site => exact ends_done h.follows (yields_this h hchecked hmatches)
  | unary operator operand =>
      simp only [Expr.resolve, Task.evalWork]
      refine ends_eval h.follows (hoperand h.follows (by simp [Place.operands])) hmatches ?_
      intro v σ₁ hσ₁ hv
      exact ends_done hσ₁ ((operates_unary operator v).yields hσ₁.sound)
  | read name site => exact ends_done h.follows (yields_read h hchecked hmatches)

theorem ends_evalAll (hclosed : V.Closed T) {σ : State} (h : σ.Sound V) {ctx : Context}
    {es : List (Expr Unit)} (hvisit : V.Here σ.scopes σ.env ctx (.arguments es))
    (hmatches : Matches σ.scopes σ.env ctx.scopes) :
    Ends V σ (Task.work (.evalAll (Expr.resolveAll ctx es)) σ)
      fun vs σ' => (∀ v ∈ vs, v.Valid σ') ∧ vs.length = (Expr.resolveAll ctx es).length := by
  cases es with
  | nil => exact ends_ok h.follows ⟨by simp, rfl⟩
  | cons e es =>
      simp only [Expr.resolveAll, Task.work]
      have he : V.Here σ.scopes σ.env ctx (.expr e) :=
        hclosed.here hvisit (by simp [Place.within, Place.next])
      have hes : V.Here σ.scopes σ.env ctx (.arguments es) :=
        hclosed.here hvisit (by simp [Place.within, Place.next])
      refine ends_eval h.follows he hmatches ?_
      intro v σ₁ hσ₁ hv
      refine ends_ask hσ₁ ⟨ctx, es, hσ₁.here hes hmatches rfl, rfl, hσ₁.matches hmatches⟩ ?_
      intro vs σ₂ hσ₂ hvs
      refine ends_ok (hσ₁.trans hσ₂) ⟨?_, by simp [hvs.2]⟩
      simp only [List.forall_mem_cons]
      exact ⟨hv.grows hσ₂.grows, hvs.1⟩

/-! ### Calls -/

theorem ends_call {σ : State} (h : σ.Sound V) {callee : Value} {arguments : List Value}
    (paren : Token) (hcallee : callee.Valid σ) (harguments : ∀ v ∈ arguments, v.Valid σ) :
    Ends V σ (Task.work (.call callee paren arguments) σ) fun v σ' => v.Valid σ' := by
  simp only [Task.work]
  split
  case h_1 => exact ends_done h.follows (yields_fail h _ _)
  case h_2 hrefusal =>
    have harity : arity? callee { σ with depth := σ.depth + 1 } = some arguments.length :=
      (arity?_congr σ { σ with depth := σ.depth + 1 } rfl rfl callee).trans
        (arity?_of_not_refused hrefusal)
    -- The depth is counted up for the call and down behind it; nothing of the contract reads it.
    have hdepth {σ' : State} (h' : Follows V { σ with depth := σ.depth + 1 } σ') :
        Follows V σ { σ' with depth := σ'.depth - 1 } :=
      ⟨h'.sound.withDepth _,
        ⟨h'.grows.scopes, h'.grows.functions, h'.grows.classes, h'.grows.objects⟩, h'.env⟩
    refine ⟨⟨h.withDepth _, hcallee, harguments, harity⟩,
      fun v σ' _ h' => ⟨hdepth h'.1, h'.2⟩, fun _ σ' h' => hdepth h'⟩

theorem ends_applyWork (hclosed : V.Closed T) {σ : State} (h : σ.Sound V) {callee : Value}
    {arguments : List Value} (hcallee : callee.Valid σ) (harguments : ∀ v ∈ arguments, v.Valid σ)
    (harity : arity? callee σ = some arguments.length) (ht : T (.apply callee arguments) σ) :
    Ends V σ (Task.applyWork callee arguments σ) fun v σ' => v.Valid σ' := by
  cases callee with
  | function id =>
      have hid : σ.functions[id]? = some σ.functions[id] := Array.getElem?_eq_getElem hcallee
      simp only [arity?, hid, Option.map_some, Option.some.injEq] at harity
      simp only [Task.applyWork, hid]
      exact ends_answer h.follows
        ⟨h.functions _ (Array.mem_of_getElem? hid), harguments, harity⟩ fun v σ' _ hv => hv
  | clock => exact ends_done h.follows (yields_readClock h)
  | «class» id =>
      have hobject : Follows V σ (σ.newObject ⟨id, []⟩).2 :=
        ⟨h.newObject hcallee, σ.grows_newObject _, rfl⟩
      have hnew : (σ.newObject ⟨id, []⟩).1 < (σ.newObject ⟨id, []⟩).2.objects.size := by
        simp [State.newObject]
      simp only [Task.applyWork]
      split
      case h_1 init hinit =>
        have hold : σ.method? id initName = some init :=
          (method?_congr σ (σ.newObject ⟨id, []⟩).2 rfl id initName).symm.trans hinit
        have hbinds : BoundBy T init σ.scopes.next := .construction ht hold
        simp only [arity?, hold, Option.some.injEq] at harity
        let σ₁ := (σ.newObject ⟨id, []⟩).2
        have hbind : Follows V σ₁ (σ₁.bindMethod init (σ.newObject ⟨id, []⟩).1).2 :=
          ⟨hobject.sound.bindMethod init hnew, σ₁.grows_bindMethod _ _, rfl⟩
        refine ends_ask (hobject.trans hbind) ⟨?_, ?_, harity⟩ ?_
        · exact State.functionSound_bindMethod hclosed hobject.sound
            (hobject.sound.method? hinit).1 hbinds _
        · exact fun v hv => ((harguments v hv).grows hobject.grows).grows hbind.grows
        · intro v σ₂ hσ₂ _
          refine ends_ok ((hobject.trans hbind).trans hσ₂) ?_
          exact Nat.lt_of_lt_of_le hnew (hbind.grows.trans hσ₂.grows).objects
      case h_2 => exact ends_ok hobject hnew
  | nil | bool b | num x | str s | object id => simp [arity?] at harity

theorem yields_result {σ : State} (h : σ.Sound V) (f : Function) {c : Completion}
    (hc : c.Valid σ) : Yields V σ (result f c σ) := by
  cases hinit : f.isInitializer with
  | true =>
      simp only [result, hinit, ↓reduceIte, Scopes.getAt?, Scopes.ancestor?_zero]
      cases hbound : σ.scopes.bound? f.closure thisName with
      | none => exact yields_ok h trivial
      | some v => exact yields_ok h (h.bound _ _ v hbound).1
  | false =>
      simp only [result, hinit, Bool.false_eq_true, ↓reduceIte]
      cases c with
      | normal => exact yields_ok h trivial
      | returned v => exact yields_ok h hc

theorem ends_invoke (hclosed : V.Closed T) {σ : State} (h : σ.Sound V) {f : Function}
    {arguments : List Value} (hf : FunctionSound V σ.scopes f)
    (harguments : ∀ v ∈ arguments, v.Valid σ)
    (hlength : f.decl.params.length = arguments.length) :
    Ends V σ (Task.work (.invoke f arguments) σ) fun v σ' => v.Valid σ' := by
  obtain ⟨ctx, kind, d, hvisit, hdecl, -, hmatches⟩ := hf
  have hparams : f.decl.params = d.params := by rw [hdecl, params_resolve]
  obtain ⟨frame, hscopes, hframe⟩ := scopes_inFunction ctx kind d.params
  have hplain := (hclosed.checked hvisit).wellFormed.fine
  simp only [Task.work]
  refine ends_ask h.follows ⟨ctx, .function kind d, ctx.inFunction kind d.params, d.body, frame,
    hvisit, List.mem_cons_self, hscopes, ?_, hmatches, ?_, ?_⟩ ?_
  · rw [hdecl, body_resolve]
  · intro name hname
    obtain ⟨param, hparam, rfl⟩ := hframe name hname
    rw [← hparams] at hparam
    exact isSome_lookup_parameters hlength hparam
  · intro name v hv
    obtain ⟨⟨param, hparam, rfl⟩, hmem⟩ := lookup_parameters hv
    rw [hparams] at hparam
    exact ⟨harguments v hmem, (hplain param hparam).admits v⟩
  · intro c σ₁ hσ₁ hc
    exact ends_done hσ₁ (yields_result hσ₁.sound f hc)

end Lox
