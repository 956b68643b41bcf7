import Lox.Proofs.Eval.Contract
import Lox.Proofs.Resolution.Returns

/-!
# Activations

What a function does when it is invoked is an activation of its own. The tasks of an activation are
those of a run in which each further invocation is only noted. They run statements of one body, and
a completion tells what they did: the first `return` among them is the last statement, and none was
reached if the body ended normally.
-/

namespace Lox

open Eval

variable {α : Type}

namespace Task

def isInvocation : Task → Bool
  | .invoke _ _ => true
  | _ => false

/-- The task runs statements. -/
def executes : Task → Bool
  | .scope _ _ _ | .execAll _ | .exec _ | .loop _ _ => true
  | _ => false

def isReturn : Task → Bool
  | .exec (.return _ _) => true
  | _ => false

/-- The statements that a task may come to, outside of the functions that they declare. -/
def stmts : Task → List (Stmt Site)
  | .invoke f _ => Stmt.withinAll f.decl.body
  | .scope body _ _ => Stmt.withinAll body
  | .execAll ss => Stmt.withinAll ss
  | .exec s => s.within
  | .loop _ body => body.within
  | _ => []

/-- A scope is that of a block, or of a function whose parameters it binds. -/
def Shaped : Task → Prop
  | .scope body parent bindings =>
      bindings = [] ∨ ∃ f arguments,
        body = f.decl.body ∧ parent = f.closure ∧ bindings = parameters f arguments
  | _ => True

/-- The tasks that are set off in the run of a task, without those of the functions that it invokes.
The run need not end: more fuel shows more of it. -/
def own : Nat → Task → State → List (Task × State)
  | 0, t, σ => [(t, σ)]
  | n + 1, t, σ =>
      (t, σ) :: (t.work σ).trace (Task.run n) fun t σ =>
        if t.isInvocation then [(t, σ)] else t.own n σ

/-- What a task of an activation adds to its tasks. -/
def noted (n : Nat) (t : Task) (σ : State) : List (Task × State) :=
  if t.isInvocation then [(t, σ)] else t.own n σ

theorem own_succ (n : Nat) (t : Task) (σ : State) :
    t.own (n + 1) σ = (t, σ) :: (t.work σ).trace (Task.run n) (noted n) := rfl

theorem shaped_of_silent {t : Task} (h : t.executes = false) : t.Shaped := by
  cases t with
  | scope body parent bindings => cases h
  | _ => trivial

theorem isReturn_eq_false {t : Task} (h : t.executes = false) : t.isReturn = false := by
  cases t <;> first | rfl | cases h

end Task

/-! ### Tasks of an activation are tasks of the run -/

theorem Work.sublist_trace {go : (t : Task) → State → Outcome t.Answer}
    {within within' : Task → State → List (Task × State)}
    (h : ∀ t σ, (within t σ).Sublist (within' t σ)) (w : Work α) :
    (w.trace go within).Sublist (w.trace go within') := by
  induction w with
  | done o => exact .slnil
  | enter t σ leave next ih =>
      rw [Work.trace, Work.trace]
      refine (h t σ).append ?_
      cases go t σ with
      | ok a σ' => exact ih a (leave σ')
      | error e σ' => exact .slnil
      | broken σ' => exact .slnil
      | outOfFuel => exact .slnil

theorem Task.own_sublist_trace (n : Nat) (t : Task) (σ : State) :
    (t.own n σ).Sublist (t.trace n σ) := by
  induction n generalizing t σ with
  | zero => exact .refl _
  | succ n ih =>
      rw [own_succ, Task.trace]
      refine .cons_cons _ (Work.sublist_trace (fun u τ => ?_) _)
      unfold noted
      split
      case isTrue =>
        rw [List.singleton_sublist]
        cases n <;> simp [Task.trace]
      case isFalse => exact ih u τ

/-- A computation that ends with the answer of its task comes to the tasks of that one. -/
theorem Work.trace_last {go : (t : Task) → State → Outcome t.Answer}
    {within : Task → State → List (Task × State)} {t : Task} {σ : State} {leave : State → State}
    {next : t.Answer → State → Work α} (h : ∀ a σ', ∃ o, next a σ' = .done o) :
    (Work.enter t σ leave next).trace go within = within t σ := by
  rw [Work.trace]
  cases go t σ with
  | ok a σ' =>
      obtain ⟨o, ho⟩ := h a (leave σ')
      simp [ho, Work.trace]
  | error e σ' => simp
  | broken σ' => simp
  | outOfFuel => simp

/-! ### Tasks of one kind -/

/-- All tasks that the computation may set off have the property. -/
def Work.Only (P : Task → Prop) : Work α → Prop
  | .done _ => True
  | .enter t _ _ next => P t ∧ ∀ a σ, (next a σ).Only P

section Only

variable {P : Task → Prop}

theorem Work.only_ask {t : Task} {σ : State} {next : t.Answer → State → Work α} (ht : P t)
    (hnext : ∀ a σ, (next a σ).Only P) : (Work.ask t σ next).Only P :=
  ⟨ht, hnext⟩

theorem Work.only_answer {t : Task} {σ : State} (ht : P t) : (Work.answer t σ).Only P :=
  ⟨ht, fun _ _ => trivial⟩

theorem Work.Only.mono {Q : Task → Prop} {w : Work α} (hw : w.Only P) (hPQ : ∀ t, P t → Q t) :
    w.Only Q := by
  induction w with
  | done o => trivial
  | enter t σ leave next ih => exact ⟨hPQ t hw.1, fun a σ' => ih a σ' (hw.2 a σ')⟩

theorem Work.Only.mem_trace {go : (t : Task) → State → Outcome t.Answer}
    {within : Task → State → List (Task × State)} {w : Work α} (hw : w.Only P)
    {p : Task × State} (hp : p ∈ w.trace go within) : ∃ t σ, P t ∧ p ∈ within t σ := by
  induction w with
  | done o => simp [Work.trace] at hp
  | enter t σ leave next ih =>
      rw [Work.trace, List.mem_append] at hp
      rcases hp with hp | hp
      · exact ⟨t, σ, hw.1, hp⟩
      · cases hrun : go t σ with
        | ok a σ' =>
            rw [hrun] at hp
            exact ih a (leave σ') (hw.2 a (leave σ')) hp
        | error e σ' => simp [hrun] at hp
        | broken σ' => simp [hrun] at hp
        | outOfFuel => simp [hrun] at hp

end Only

/-- What steps hand on within one activation: a part of their statements, and none if they run none. -/
structure Task.Within (t u : Task) : Prop where
  stmts : u.isInvocation = false → ∀ s ∈ u.stmts, s ∈ t.stmts
  executes : t.isInvocation = false → t.executes = false → u.executes = false
  shaped : u.Shaped

section Within

theorem Task.within_of_silent {t u : Task} (h : u.executes = false) (hstmts : u.stmts = []) :
    t.Within u :=
  ⟨fun _ s hs => by simp [hstmts] at hs, fun _ _ => h, shaped_of_silent h⟩

theorem Task.within_of_executes {t u : Task} (ht : t.executes = true)
    (h : ∀ s ∈ u.stmts, s ∈ t.stmts) (hshaped : u.Shaped) : t.Within u :=
  ⟨fun _ => h, fun _ hfalse => by simp [ht] at hfalse, hshaped⟩

theorem Task.within_eval (t : Task) (e : Expr Site) : t.Within (.eval e) :=
  within_of_silent rfl rfl

theorem only_evalWork (e : Expr Site) (σ : State) :
    (Task.evalWork e σ).Only (Task.eval e).Within := by
  have hvalue (e' : Expr Site) := (Task.eval e).within_eval e'
  cases e with
  | assign name site value => exact Work.only_ask (hvalue value) fun _ _ => trivial
  | binary left operator right =>
      refine Work.only_ask (hvalue left) fun a σ₁ => ?_
      exact Work.only_ask (hvalue right) fun _ _ => trivial
  | call callee paren arguments =>
      refine Work.only_ask (hvalue callee) fun f σ₁ => ?_
      refine Work.only_ask (Task.within_of_silent rfl rfl) fun vs σ₂ => ?_
      exact Work.only_answer (Task.within_of_silent rfl rfl)
  | get object name => exact Work.only_ask (hvalue object) fun _ _ => trivial
  | group inner => exact Work.only_answer (hvalue inner)
  | logical left operator right =>
      refine Work.only_ask (hvalue left) fun a σ₁ => ?_
      split
      · trivial
      · exact Work.only_answer (hvalue right)
  | set object name value =>
      refine Work.only_ask (hvalue object) fun o σ₁ => ?_
      cases o with
      | object id => exact Work.only_ask (hvalue value) fun _ _ => trivial
      | _ => trivial
  | unary operator operand => exact Work.only_ask (hvalue operand) fun _ _ => trivial
  | _ => trivial

theorem only_execWork (s : Stmt Site) (σ : State) :
    (Task.execWork s σ).Only (Task.exec s).Within := by
  have hvalue (e : Expr Site) := (Task.exec s).within_eval e
  have hpart {u : Task} (h : ∀ r ∈ u.stmts, r ∈ s.within) (hshaped : u.Shaped) :
      (Task.exec s).Within u :=
    Task.within_of_executes rfl h hshaped
  cases s with
  | block body =>
      exact Work.only_answer (hpart (fun r hr => List.mem_cons_of_mem _ hr) (.inl rfl))
  | expr e => exact Work.only_ask (hvalue e) fun _ _ => trivial
  | ifThen condition thenBranch =>
      refine Work.only_ask (hvalue condition) fun v σ₁ => ?_
      split
      · exact Work.only_answer (hpart (fun r hr => List.mem_cons_of_mem _ hr) trivial)
      · trivial
  | ifElse condition thenBranch elseBranch =>
      refine Work.only_ask (hvalue condition) fun v σ₁ => ?_
      split
      · exact Work.only_answer
          (hpart (fun r hr => List.mem_cons_of_mem _ (List.mem_append_left _ hr)) trivial)
      · exact Work.only_answer
          (hpart (fun r hr => List.mem_cons_of_mem _ (List.mem_append_right _ hr)) trivial)
  | print e => exact Work.only_ask (hvalue e) fun _ _ => trivial
  | «return» keyword value =>
      cases value with
      | none => trivial
      | some e => exact Work.only_ask (hvalue e) fun _ _ => trivial
  | var name init =>
      cases init with
      | none => trivial
      | some e => exact Work.only_ask (hvalue e) fun _ _ => trivial
  | «while» condition body =>
      exact Work.only_answer (hpart (fun r hr => List.mem_cons_of_mem _ hr) trivial)
  | _ => trivial

theorem only_applyWork (callee : Value) (arguments : List Value) (σ : State) :
    (Task.applyWork callee arguments σ).Only (Task.apply callee arguments).Within := by
  have hinvoke (f : Function) : (Task.apply callee arguments).Within (.invoke f arguments) :=
    ⟨nofun, fun _ _ => rfl, trivial⟩
  cases callee with
  | function id =>
      simp only [Task.applyWork]
      split
      · exact Work.only_answer (hinvoke _)
      · trivial
  | «class» id =>
      simp only [Task.applyWork]
      split
      · exact Work.only_ask (hinvoke _) fun _ _ => trivial
      · trivial
  | _ => trivial

theorem Task.only_within (t : Task) (σ : State) : (t.work σ).Only t.Within := by
  cases t with
  | eval e => exact only_evalWork e σ
  | evalAll es =>
      cases es with
      | nil => trivial
      | cons e es =>
          refine Work.only_ask (within_eval _ e) fun v σ₁ => ?_
          exact Work.only_ask (within_of_silent rfl rfl) fun _ _ => trivial
  | call callee paren arguments =>
      simp only [work]
      split
      · trivial
      · exact ⟨within_of_silent rfl rfl, fun _ _ => trivial⟩
  | apply callee arguments => exact only_applyWork callee arguments σ
  | invoke f arguments =>
      refine Work.only_ask ⟨fun _ _ hs => hs, fun hfalse => ?_, ?_⟩ fun _ _ => trivial
      · cases hfalse
      · exact .inr ⟨f, arguments, rfl, rfl, rfl⟩
  | scope body parent bindings =>
      exact ⟨within_of_executes rfl (fun _ hs => hs) trivial, fun _ _ => trivial⟩
  | execAll ss =>
      cases ss with
      | nil => trivial
      | cons s ss =>
          refine Work.only_ask
            (within_of_executes rfl (fun r hr => List.mem_append_left _ hr) trivial) fun c σ₁ => ?_
          cases c with
          | normal =>
              exact Work.only_answer
                (within_of_executes rfl (fun r hr => List.mem_append_right _ hr) trivial)
          | returned v => trivial
  | exec s => exact only_execWork s σ
  | loop condition body =>
      refine Work.only_ask (within_eval _ condition) fun v σ₁ => ?_
      split
      · refine Work.only_ask (within_of_executes rfl (fun r hr => hr) trivial) fun c σ₂ => ?_
        cases c with
        | normal => exact Work.only_answer (within_of_executes rfl (fun r hr => hr) trivial)
        | returned v => trivial
      · trivial

end Within

section Own

variable {n : Nat} {t : Task} {σ : State} {p : Task × State}

theorem Task.eq_or_mem_noted (hp : p ∈ t.own (n + 1) σ) :
    p = (t, σ) ∨ ∃ u τ, t.Within u ∧ p ∈ u.noted n τ := by
  rw [own_succ, List.mem_cons] at hp
  exact hp.imp_right fun hp => (t.only_within σ).mem_trace hp

theorem Task.mem_noted {u : Task} {τ : State} (hp : p ∈ u.noted n τ) :
    (u.isInvocation = true ∧ p = (u, τ)) ∨ (u.isInvocation = false ∧ p ∈ u.own n τ) := by
  unfold noted at hp
  split at hp
  case isTrue h => exact .inl ⟨h, List.mem_singleton.mp hp⟩
  case isFalse h => exact .inr ⟨Bool.eq_false_iff.mpr h, hp⟩

/-- The statements of an activation stand in the code with which it starts. -/
theorem Task.stmts_of_own (hp : p ∈ t.own n σ) {s : Stmt Site} (hs : p.1 = .exec s) :
    s ∈ t.stmts := by
  have hkept : p.1.isInvocation = false → ∀ r ∈ p.1.stmts, r ∈ t.stmts := by
    clear hs
    induction n generalizing t σ with
    | zero =>
        obtain rfl := List.mem_singleton.mp hp
        exact fun _ r hr => hr
    | succ n ih =>
        rcases eq_or_mem_noted hp with rfl | ⟨u, τ, hwithin, hp⟩
        · exact fun _ r hr => hr
        · rcases mem_noted hp with ⟨hu, rfl⟩ | ⟨hu, hp⟩
          · intro hfalse
            simp [hu] at hfalse
          · intro hkind r hr
            exact hwithin.stmts hu r (ih hp hkind r hr)
  rw [hs] at hkept
  exact hkept rfl s s.mem_within

/-- While an expression is evaluated, the activation runs no statements. -/
theorem Task.executes_of_own (hinvoke : t.isInvocation = false) (ht : t.executes = false)
    (hp : p ∈ t.own n σ) : p.1.executes = false := by
  induction n generalizing t σ with
  | zero =>
      obtain rfl := List.mem_singleton.mp hp
      exact ht
  | succ n ih =>
      rcases eq_or_mem_noted hp with rfl | ⟨u, τ, hwithin, hp⟩
      · exact ht
      · have hu := hwithin.executes hinvoke ht
        rcases mem_noted hp with ⟨-, rfl⟩ | ⟨hinvoke', hp⟩
        · exact hu
        · exact ih hinvoke' hu hp

end Own

/-! ### What a completion tells -/

/-- The value that the expression of a `return` has in the state. -/
def Returns (σ : State) (v : Value) : Option (Expr Site) → Prop
  | none => v = .nil
  | some e => ∃ n σ', e.eval n σ = .ok v σ'

/-- The tasks are those of code that ended in this way. The first `return` among them is the last
statement, and its value is returned. -/
def Completion.Shown : Completion → List (Task × State) → Prop
  | .normal, tasks => ∀ p ∈ tasks, p.1.isReturn = false
  | .returned v, tasks =>
      ∃ before keyword value σ after, tasks = before ++ (.exec (.return keyword value), σ) :: after ∧
        (∀ p ∈ before, p.1.isReturn = false) ∧ (∀ p ∈ after, p.1.executes = false) ∧
        Returns σ v value

/-- The value of a call whose body has ended. -/
def Completion.value : Completion → Value
  | .normal => .nil
  | .returned v => v

theorem Completion.Shown.append {c : Completion} {before tasks : List (Task × State)}
    (h : c.Shown tasks) (hbefore : ∀ p ∈ before, p.1.isReturn = false) :
    c.Shown (before ++ tasks) := by
  cases c with
  | normal =>
      rw [Shown, List.forall_mem_append]
      exact ⟨hbefore, h⟩
  | returned v =>
      obtain ⟨first, keyword, value, σ, after, rfl, hfirst, hafter, hvalue⟩ := h
      refine ⟨before ++ first, keyword, value, σ, after, by simp, ?_, hafter, hvalue⟩
      rw [List.forall_mem_append]
      exact ⟨hbefore, hfirst⟩

theorem Completion.Shown.cons {c : Completion} {p : Task × State} {tasks : List (Task × State)}
    (h : c.Shown tasks) (hp : p.1.isReturn = false) : c.Shown (p :: tasks) := by
  rw [← List.singleton_append]
  exact h.append (List.forall_mem_singleton.mpr hp)

/-- If the computation has an answer, it is as its tasks tell. -/
def Work.Tells (n : Nat) (told : α → List (Task × State) → Prop) (w : Work α) : Prop :=
  ∀ a σ, w.run (Task.run n) = .ok a σ → told a (w.trace (Task.run n) (Task.noted n))

section Rules

variable {n : Nat} {told : α → List (Task × State) → Prop}

theorem Work.tells_ok {a : α} {σ : State} (h : told a []) : (Work.done (.ok a σ)).Tells n told := by
  intro b σ' hrun
  cases hrun
  exact h

theorem Work.tells_enter {t : Task} {σ : State} {leave : State → State}
    {next : t.Answer → State → Work α}
    (h : ∀ a σ', t.run n σ = .ok a σ' →
      (next a (leave σ')).Tells n fun b tasks => told b (t.noted n σ ++ tasks)) :
    (Work.enter t σ leave next).Tells n told := by
  intro b σ'' hrun
  rw [Work.run_enter] at hrun
  obtain ⟨a, σ₁, hleft, hnext⟩ := Outcome.bind_eq_ok.mp hrun
  obtain ⟨σ', hfirst, rfl⟩ := Outcome.leaving_eq_ok.mp hleft
  rw [Work.trace, hfirst]
  exact h a σ' hfirst b σ'' hnext

theorem Work.tells_answer {t : Task} {σ : State} {told : t.Answer → List (Task × State) → Prop}
    (h : ∀ a σ', t.run n σ = .ok a σ' → told a (t.noted n σ)) :
    (Work.answer t σ).Tells n told := by
  refine Work.tells_enter fun a σ' hrun => Work.tells_ok ?_
  rw [List.append_nil]
  exact h a σ' hrun

theorem Work.Tells.mono {told' : α → List (Task × State) → Prop} {w : Work α} (h : w.Tells n told)
    (hmono : ∀ a tasks, told a tasks → told' a tasks) : w.Tells n told' :=
  fun a σ hrun => hmono a _ (h a σ hrun)

end Rules

/-- What the answer of a task tells about statements. -/
def Task.Told : (t : Task) → t.Answer → List (Task × State) → Prop
  | .scope _ _ _, c, tasks | .execAll _, c, tasks | .exec _, c, tasks | .loop _ _, c, tasks =>
      Completion.Shown c tasks
  | _, _, _ => True

theorem finishClass_normal {name : Token} {superclass : Option ClassId}
    {methods : List (FunctionDecl Site)} {σ σ' : State} {c : Completion}
    (h : finishClass name superclass methods σ = .ok c σ') : c = .normal := by
  simp only [finishClass] at h
  split at h <;> cases h
  rfl

theorem classWork_normal {name : Token} {superclass : Option (Token × Site)}
    {methods : List (FunctionDecl Site)} {σ σ' : State} {c : Completion}
    (h : Task.classWork name superclass methods σ = .ok c σ') : c = .normal := by
  cases superclass with
  | none =>
      rw [Task.classWork] at h
      exact finishClass_normal h
  | some use =>
      obtain ⟨v, σ₁, -, hclass⟩ := Outcome.bind_eq_ok.mp h
      cases v with
      | «class» id => exact finishClass_normal hclass
      | _ => cases hclass

section Step

variable {n : Nat} {σ : State}

/-- An expression is evaluated without a `return`. -/
theorem tells_eval {e : Expr Site} {next : Value → State → Work Completion}
    (h : ∀ v σ', (next v σ').Tells n Completion.Shown) :
    (Work.ask (.eval e) σ next).Tells n Completion.Shown := by
  refine Work.tells_enter fun v σ' _ => (h v σ').mono fun c tasks hc => hc.append ?_
  intro p hp
  exact Task.isReturn_eq_false (Task.executes_of_own rfl rfl hp)

/-- A `return` evaluates its value and is the end. -/
theorem tells_return (keyword : Token) (value : Option (Expr Site)) :
    (Task.execWork (.return keyword value) σ).Tells n fun c tasks =>
      c.Shown ((.exec (.return keyword value), σ) :: tasks) := by
  cases value with
  | none =>
      refine Work.tells_ok ⟨[], keyword, none, σ, [], rfl, ?_, ?_, rfl⟩
      · exact List.forall_mem_nil _
      · exact List.forall_mem_nil _
  | some e =>
      refine Work.tells_enter fun v σ' hrun => Work.tells_ok ?_
      refine ⟨[], keyword, some e, σ, _, rfl, List.forall_mem_nil _, fun p hp => ?_, n, σ', hrun⟩
      rw [List.append_nil] at hp
      exact Task.executes_of_own rfl rfl hp

-- The tasks that a step sets off tell what they did.
variable (below : ∀ (t : Task) (σ : State) a σ', t.run n σ = .ok a σ' → t.Told a (t.noted n σ))
include below

theorem tells_scope (body : List (Stmt Site)) (parent : ScopeId) (bindings : Bindings Value) :
    (Task.work (.scope body parent bindings) σ).Tells n Completion.Shown := by
  refine Work.tells_enter fun c σ' hrun => Work.tells_ok ?_
  rw [List.append_nil]
  exact below (.execAll body) _ c σ' hrun

/-- A statement that returns is the last one; behind any other the code goes on. -/
theorem tells_exec {s : Stmt Site} {next : Completion → State → Work Completion}
    (hnormal : ∀ σ', (next .normal σ').Tells n Completion.Shown)
    (hreturned : ∀ v σ', next (.returned v) σ' = .done (.ok (.returned v) σ')) :
    (Work.ask (.exec s) σ next).Tells n Completion.Shown := by
  refine Work.tells_enter fun c σ' hrun => ?_
  have hfirst : Completion.Shown c _ := below (.exec s) σ c σ' hrun
  cases c with
  | normal => exact (hnormal σ').mono fun c tasks hc => hc.append hfirst
  | returned v =>
      rw [id, hreturned]
      refine Work.tells_ok ?_
      rwa [List.append_nil]

theorem tells_execWork {s : Stmt Site} (hs : (Task.exec s).isReturn = false) :
    (Task.execWork s σ).Tells n Completion.Shown := by
  have hnormal (σ' : State) : (Work.done (.ok .normal σ')).Tells n Completion.Shown :=
    Work.tells_ok (List.forall_mem_nil _)
  cases s with
  | block body => exact Work.tells_answer (below (.scope body σ.env []) σ)
  | «class» name superclass methods =>
      intro c σ' hrun
      obtain rfl := classWork_normal hrun
      exact List.forall_mem_nil _
  | expr e => exact tells_eval fun _ σ' => hnormal σ'
  | function decl => exact hnormal _
  | ifThen condition thenBranch =>
      refine tells_eval fun v σ' => ?_
      split
      · exact Work.tells_answer (below (.exec thenBranch) σ')
      · exact hnormal σ'
  | ifElse condition thenBranch elseBranch =>
      refine tells_eval fun v σ' => ?_
      split
      · exact Work.tells_answer (below (.exec thenBranch) σ')
      · exact Work.tells_answer (below (.exec elseBranch) σ')
  | print e => exact tells_eval fun _ σ' => hnormal _
  | «return» keyword value => cases hs
  | var name init =>
      cases init with
      | none => exact hnormal _
      | some e => exact tells_eval fun _ σ' => hnormal _
  | «while» condition body => exact Work.tells_answer (below (.loop condition body) σ)

theorem tells_execAll (ss : List (Stmt Site)) :
    (Task.work (.execAll ss) σ).Tells n Completion.Shown := by
  cases ss with
  | nil => exact Work.tells_ok (List.forall_mem_nil _)
  | cons s ss =>
      refine tells_exec below (fun σ' => ?_) fun _ _ => rfl
      exact Work.tells_answer (below (.execAll ss) σ')

theorem tells_loop (condition : Expr Site) (body : Stmt Site) :
    (Task.work (.loop condition body) σ).Tells n Completion.Shown := by
  refine tells_eval fun v σ' => ?_
  split
  · refine tells_exec below (fun σ'' => ?_) fun _ _ => rfl
    exact Work.tells_answer (below (.loop condition body) σ'')
  · exact Work.tells_ok (List.forall_mem_nil _)

end Step

/-- Every answer of a task is as the tasks of its activation tell. -/
theorem Task.told (n : Nat) (t : Task) (σ : State) (a : t.Answer) (σ' : State)
    (hrun : t.run n σ = .ok a σ') : t.Told a (t.noted n σ) := by
  induction n generalizing t σ σ' with
  | zero =>
      rw [run_zero] at hrun
      cases hrun
  | succ n ih =>
      have below := fun t σ a σ' => ih t σ a σ'
      rw [run_succ] at hrun
      -- A step that is no `return` only adds what the tasks below it did.
      have hstep (h : t.isReturn = false) {c : Completion} {tasks : List (Task × State)}
          (hc : c.Shown tasks) : c.Shown ((t, σ) :: tasks) :=
        hc.cons h
      cases t with
      | scope body parent bindings => exact hstep rfl (tells_scope below body parent bindings a σ' hrun)
      | execAll ss => exact hstep rfl (tells_execAll below ss a σ' hrun)
      | exec s =>
          cases hs : (Task.exec s).isReturn with
          | false => exact hstep hs (tells_execWork below hs a σ' hrun)
          | true =>
              cases s with
              | «return» keyword value => exact tells_return keyword value a σ' hrun
              | _ => cases hs
      | loop condition body => exact hstep rfl (tells_loop below condition body a σ' hrun)
      | _ => trivial

/-! ### Calls -/

section Calls

variable {n : Nat} {f : Function} {arguments : List Value} {v : Value} {σ σ' : State}

theorem Task.own_invoke (n : Nat) (f : Function) (arguments : List Value) (σ : State) :
    (Task.invoke f arguments).own (n + 1) σ =
      (.invoke f arguments, σ) ::
        (Task.scope f.decl.body f.closure (parameters f arguments)).own n σ := by
  rw [own_succ, work]
  exact congrArg _ (Work.trace_last fun c σ' => ⟨result f c σ', rfl⟩)

/-- An invocation yields what the completion of the body is worth, and that tells which `return` was
reached. -/
theorem exists_shown_of_invoke (hinit : f.isInitializer = false)
    (hrun : f.apply n arguments σ = .ok v σ') :
    ∃ c : Completion, c.Shown ((Task.invoke f arguments).own n σ) ∧ v = c.value := by
  cases n with
  | zero => simp [Function.apply] at hrun
  | succ n =>
      let body := Task.scope f.decl.body f.closure (parameters f arguments)
      rw [Function.apply] at hrun
      obtain ⟨c, σ₁, hbody, hresult⟩ := Outcome.bind_eq_ok.mp hrun
      have hshown : c.Shown (body.own n σ) := body.told n σ c σ₁ hbody
      refine ⟨c, ?_, ?_⟩
      · rw [Task.own_invoke]
        exact hshown.cons rfl
      · cases c <;> simp only [result, hinit, Bool.false_eq_true, ↓reduceIte] at hresult <;>
          cases hresult <;> rfl

/-- A call that succeeds was not refused, and yields what was applied then. -/
theorem exists_apply_of_call {callee : Value} {paren : Token}
    (hcall : callee.call n paren arguments σ = .ok v σ') :
    ∃ m σ₁, n = m + 1 ∧ refusal? callee arguments.length σ = none ∧
      callee.apply m arguments { σ with depth := σ.depth + 1 } = .ok v σ₁ ∧
      σ' = { σ₁ with depth := σ₁.depth - 1 } := by
  cases n with
  | zero => simp [Value.call] at hcall
  | succ n =>
      rw [Value.call] at hcall
      cases hrefusal : refusal? callee arguments.length σ with
      | some cause => simp [hrefusal, fail] at hcall
      | none =>
          simp only [hrefusal] at hcall
          obtain ⟨σ₁, happly, rfl⟩ := Outcome.leaving_eq_ok.mp hcall
          exact ⟨n, σ₁, rfl, rfl, happly, rfl⟩

/-- The call of a function is its invocation. -/
theorem exists_invoke_of_call {id : FunctionId} {paren : Token}
    (hcall : (Value.function id).call n paren arguments σ = .ok v σ') :
    ∃ f m σ₁, σ.functions[id]? = some f ∧ f.decl.params.length = arguments.length ∧
      f.apply m arguments { σ with depth := σ.depth + 1 } = .ok v σ₁ := by
  obtain ⟨m, σ₁, -, hrefusal, happly, -⟩ := exists_apply_of_call hcall
  cases m with
  | zero => simp [Value.apply] at happly
  | succ m =>
      rw [Value.apply] at happly
      cases hf : σ.functions[id]? with
      | none => simp [hf] at happly
      | some f =>
          simp only [hf] at happly
          refine ⟨f, m, σ₁, rfl, ?_, happly⟩
          by_cases hlength : arguments.length = f.decl.params.length
          · exact hlength.symm
          · simp [refusal?, arity?, hf, hlength] at hrefusal

end Calls

end Lox
