import Lox.Eval

/-!
# The evaluator as a tree of tasks

Everything that the evaluator can be asked to do is a `Task`. One step of a task is laid out as a
`Work`: which further tasks it sets off, in which states, and how it goes on with their answers. The
evaluator runs that layout (`Task.run_succ`), so what holds of every step of every task is proved
about the layout alone.
-/

namespace Lox

open Eval

inductive Task where
  | eval (e : Expr Site)
  | evalAll (es : List (Expr Site))
  | call (callee : Value) (paren : Token) (arguments : List Value)
  | apply (callee : Value) (arguments : List Value)
  | invoke (f : Function) (arguments : List Value)
  | scope (body : List (Stmt Site)) (parent : ScopeId) (bindings : Bindings Value)
  | execAll (ss : List (Stmt Site))
  | exec (s : Stmt Site)
  | loop (condition : Expr Site) (body : Stmt Site)

namespace Task

abbrev Answer : Task → Type
  | .eval _ | .call _ _ _ | .apply _ _ | .invoke _ _ => Value
  | .evalAll _ => List Value
  | .scope _ _ _ | .execAll _ | .exec _ | .loop _ _ => Completion

def run (n : Nat) : (t : Task) → State → Outcome t.Answer
  | .eval e, σ => e.eval n σ
  | .evalAll es, σ => Expr.evalAll n es σ
  | .call callee paren arguments, σ => callee.call n paren arguments σ
  | .apply callee arguments, σ => callee.apply n arguments σ
  | .invoke f arguments, σ => f.apply n arguments σ
  | .scope body parent bindings, σ => Stmt.execScope n body parent bindings σ
  | .execAll ss, σ => Stmt.execAll n ss σ
  | .exec s, σ => s.exec n σ
  | .loop condition body, σ => Stmt.loop n condition body σ

end Task

/-- One step of a computation: it has ended, or it sets off a task in a state. However that task
ends, `leave` changes the state behind it; if it has an answer, the computation goes on with
`next`. -/
inductive Work (α : Type) where
  | done (o : Outcome α)
  | enter (t : Task) (σ : State) (leave : State → State) (next : t.Answer → State → Work α)

namespace Work

variable {α : Type}

/-- Sets off a task and goes on in the state that it leaves. -/
def ask (t : Task) (σ : State) (next : t.Answer → State → Work α) : Work α :=
  .enter t σ id next

/-- Hands over to a task that has the same kind of answer. -/
def answer (t : Task) (σ : State) : Work t.Answer :=
  .ask t σ fun a σ => .done (.ok a σ)

/-- The end of a computation whose tasks are run by `go`. -/
def run (go : (t : Task) → State → Outcome t.Answer) : Work α → Outcome α
  | .done o => o
  | .enter t σ leave next => ((go t σ).leaving leave).bind fun a σ => (next a σ).run go

end Work

theorem Outcome.leaving_id {α : Type} (o : Outcome α) : o.leaving id = o := by
  cases o <;> rfl

@[simp]
theorem Outcome.bind_ok {α : Type} (o : Outcome α) : (o.bind fun a σ => .ok a σ) = o := by
  cases o <;> rfl

section Ended

variable {α β : Type} {o : Outcome α} {f : α → State → Outcome β} {σ' : State}

theorem Outcome.bind_eq_ok {b : β} :
    o.bind f = .ok b σ' ↔ ∃ a σ, o = .ok a σ ∧ f a σ = .ok b σ' := by
  cases o <;> simp [bind, and_assoc]

theorem Outcome.bind_eq_error {e : RuntimeError} :
    o.bind f = .error e σ' ↔
      o = .error e σ' ∨ ∃ a σ, o = .ok a σ ∧ f a σ = .error e σ' := by
  cases o <;> simp [bind, and_assoc]

theorem Outcome.leaving_eq_ok {a : α} {leave : State → State} :
    o.leaving leave = .ok a σ' ↔ ∃ σ, o = .ok a σ ∧ σ' = leave σ := by
  cases o <;> simp [leaving, eq_comm, and_assoc]

end Ended

section Run

variable {α : Type} (go : (t : Task) → State → Outcome t.Answer)

@[simp]
theorem Work.run_done (o : Outcome α) : (Work.done o).run go = o := rfl

@[simp]
theorem Work.run_ask (t : Task) (σ : State) (next : t.Answer → State → Work α) :
    (Work.ask t σ next).run go = (go t σ).bind fun a σ => (next a σ).run go := by
  rw [Work.ask, Work.run, Outcome.leaving_id]

theorem Work.run_enter (t : Task) (σ : State) (leave : State → State)
    (next : t.Answer → State → Work α) :
    (Work.enter t σ leave next).run go =
      ((go t σ).leaving leave).bind fun a σ => (next a σ).run go := rfl

end Run

/-! ### The steps of each task -/

namespace Task

def evalWork : Expr Site → State → Work Value
  | .assign name site value, σ =>
      .ask (.eval value) σ fun v σ => .done (assign name site v σ)
  | .binary left operator right, σ =>
      .ask (.eval left) σ fun a σ => .ask (.eval right) σ fun b σ => .done (binary operator a b σ)
  | .call callee paren arguments, σ =>
      .ask (.eval callee) σ fun f σ =>
        .ask (.evalAll arguments) σ fun vs σ => .answer (.call f paren vs) σ
  | .get object name, σ => .ask (.eval object) σ fun v σ => .done (get v name σ)
  | .group inner, σ => .answer (.eval inner) σ
  | .literal value, σ => .done (.ok value.value σ)
  | .logical left operator right, σ =>
      .ask (.eval left) σ fun a σ =>
        if decides operator a then .done (.ok a σ) else .answer (.eval right) σ
  | .set object name value, σ =>
      .ask (.eval object) σ fun o σ =>
        match o with
        | .object id =>
            .ask (.eval value) σ fun v σ => .done (.ok v (σ.setField id name.lexeme v))
        | _ => .done (fail name .noFields σ)
  | .super _ site method, σ => .done (super site method σ)
  | .this keyword site, σ => .done (read keyword site σ)
  | .unary operator operand, σ =>
      .ask (.eval operand) σ fun v σ => .done (unary operator v σ)
  | .read name site, σ => .done (read name site σ)

/-- The superclass of a class statement has been read. -/
def classWork (name : Token) (superclass : Option (Token × Site))
    (methods : List (FunctionDecl Site)) (σ : State) : Outcome Completion :=
  match superclass with
  | none => finishClass name none methods σ
  | some (base, site) =>
      (read base site σ).bind fun v σ =>
        match v with
        | .class id => finishClass name (some id) methods σ
        | _ => fail base .superclassNotClass σ

def execWork : Stmt Site → State → Work Completion
  | .block body, σ => .answer (.scope body σ.env []) σ
  | .class name superclass methods, σ =>
      .done (classWork name superclass methods (σ.define σ.env name.lexeme .nil))
  | .expr e, σ => .ask (.eval e) σ fun _ σ => .done (.ok .normal σ)
  | .function decl, σ =>
      let (v, σ) := σ.functionValue ⟨decl, σ.env, false⟩
      .done (.ok .normal (σ.define σ.env decl.name.lexeme v))
  | .ifThen condition thenBranch, σ =>
      .ask (.eval condition) σ fun v σ =>
        if v.truthy then .answer (.exec thenBranch) σ else .done (.ok .normal σ)
  | .ifElse condition thenBranch elseBranch, σ =>
      .ask (.eval condition) σ fun v σ =>
        if v.truthy then .answer (.exec thenBranch) σ else .answer (.exec elseBranch) σ
  | .print e, σ => .ask (.eval e) σ fun v σ => .done (.ok .normal (σ.print (σ.text v)))
  | .return _ none, σ => .done (.ok (.returned .nil) σ)
  | .return _ (some e), σ => .ask (.eval e) σ fun v σ => .done (.ok (.returned v) σ)
  | .var name none, σ => .done (.ok .normal (σ.define σ.env name.lexeme .nil))
  | .var name (some e), σ =>
      .ask (.eval e) σ fun v σ => .done (.ok .normal (σ.define σ.env name.lexeme v))
  | .while condition body, σ => .answer (.loop condition body) σ

/-- A class makes an instance and runs its initializer on it. -/
def applyWork : Value → List Value → State → Work Value
  | .function id, arguments, σ =>
      match σ.functions[id]? with
      | some f => .answer (.invoke f arguments) σ
      | none => .done (.broken σ)
  | .clock, _, σ => .done (readClock σ)
  | .class id, arguments, σ =>
      let (object, σ) := σ.newObject ⟨id, []⟩
      match σ.method? id initName with
      | some init =>
          let (init, σ) := σ.bindMethod init object
          .ask (.invoke init arguments) σ fun _ σ => .done (.ok (.object object) σ)
      | none => .done (.ok (.object object) σ)
  | _, _, σ => .done (.broken σ)

def work : (t : Task) → State → Work t.Answer
  | .eval e, σ => evalWork e σ
  | .evalAll [], σ => .done (.ok [] σ)
  | .evalAll (e :: es), σ =>
      .ask (.eval e) σ fun v σ => .ask (.evalAll es) σ fun vs σ => .done (.ok (v :: vs) σ)
  | .call callee paren arguments, σ =>
      match refusal? callee arguments.length σ with
      | some cause => .done (fail paren cause σ)
      | none =>
          .enter (.apply callee arguments) { σ with depth := σ.depth + 1 }
            (fun σ => { σ with depth := σ.depth - 1 }) fun v σ => .done (.ok v σ)
  | .apply callee arguments, σ => applyWork callee arguments σ
  | .invoke f arguments, σ =>
      .ask (.scope f.decl.body f.closure (parameters f arguments)) σ fun c σ => .done (result f c σ)
  | .scope body parent bindings, σ =>
      .enter (.execAll body) (σ.enter parent bindings) (fun σ' => { σ' with env := σ.env })
        fun c σ => .done (.ok c σ)
  | .execAll [], σ => .done (.ok .normal σ)
  | .execAll (s :: ss), σ =>
      .ask (.exec s) σ fun c σ =>
        match c with
        | .normal => .answer (.execAll ss) σ
        | .returned v => .done (.ok (.returned v) σ)
  | .exec s, σ => execWork s σ
  | .loop condition body, σ =>
      .ask (.eval condition) σ fun v σ =>
        if v.truthy then
          .ask (.exec body) σ fun c σ =>
            match c with
            | .normal => .answer (.loop condition body) σ
            | .returned v => .done (.ok (.returned v) σ)
        else
          .done (.ok .normal σ)

/-! ### The evaluator runs these steps -/

theorem run_eval (n : Nat) (e : Expr Site) (σ : State) :
    Expr.eval (n + 1) e σ = (evalWork e σ).run (run n) := by
  cases e with
  | logical left operator right =>
      simp only [Expr.eval, evalWork, Work.run_ask]
      congr 1
      funext a σ
      split <;> simp [Work.answer, run]
  | set object name value =>
      simp only [Expr.eval, evalWork, Work.run_ask]
      congr 1
      funext o σ
      cases o <;> simp [run]
  | _ => simp [Expr.eval, evalWork, Work.answer, run]

theorem run_exec (n : Nat) (s : Stmt Site) (σ : State) :
    Stmt.exec (n + 1) s σ = (execWork s σ).run (run n) := by
  cases s with
  | «class» name superclass methods =>
      cases superclass <;> rfl
  | ifThen condition thenBranch =>
      simp only [Stmt.exec, execWork, Work.run_ask]
      congr 1
      funext v σ
      split <;> simp [Work.answer, run]
  | ifElse condition thenBranch elseBranch =>
      simp only [Stmt.exec, execWork, Work.run_ask]
      congr 1
      funext v σ
      split <;> simp [Work.answer, run]
  | «return» keyword value => cases value <;> simp [Stmt.exec, execWork, run]
  | var name init => cases init <;> simp [Stmt.exec, execWork, run]
  | _ => simp [Stmt.exec, execWork, Work.answer, run]

theorem run_apply (n : Nat) (callee : Value) (arguments : List Value) (σ : State) :
    Value.apply (n + 1) callee arguments σ = (applyWork callee arguments σ).run (run n) := by
  cases callee with
  | function id =>
      simp only [Value.apply, applyWork]
      split <;> simp [*, Work.answer, run]
  | «class» id =>
      simp only [Value.apply, applyWork]
      split <;> simp [*, run]
  | _ => simp [Value.apply, applyWork]

theorem run_zero (t : Task) (σ : State) : t.run 0 σ = .outOfFuel := by
  cases t <;> simp [run, Expr.eval, Expr.evalAll, Value.call, Value.apply, Function.apply,
    Stmt.execScope, Stmt.execAll, Stmt.exec, Stmt.loop]

/-- With fuel left a task takes one step, and the tasks that it sets off have one less. -/
theorem run_succ (n : Nat) (t : Task) (σ : State) : t.run (n + 1) σ = (t.work σ).run (run n) := by
  cases t with
  | eval e => exact run_eval n e σ
  | evalAll es => cases es <;> simp [run, work, Expr.evalAll]
  | call callee paren arguments =>
      simp only [run, work, Value.call]
      cases refusal? callee arguments.length σ with
      | some cause => rfl
      | none => exact (Outcome.bind_ok _).symm
  | apply callee arguments => exact run_apply n callee arguments σ
  | invoke f arguments => simp [run, work, Function.apply]
  | scope body parent bindings =>
      simp only [run, work, Stmt.execScope, Work.run_enter]
      exact (Outcome.bind_ok _).symm
  | execAll ss =>
      cases ss with
      | nil => simp [run, work, Stmt.execAll]
      | cons s ss =>
          simp only [run, work, Stmt.execAll, Work.run_ask]
          congr 1
          funext c σ
          cases c <;> simp [Work.answer, run]
  | exec s => exact run_exec n s σ
  | loop condition body =>
      simp only [run, work, Stmt.loop, Work.run_ask]
      congr 1
      funext v σ
      split
      · rw [Work.run_ask]
        congr 1
        funext c σ
        cases c <;> simp [Work.answer, run]
      · rfl

end Task

end Lox
