import Lox.Proofs.Lines.Store

/-!
# Evaluation on other lines

Code on other lines, run in a state on other lines, ends in the same way. Lines reach nothing but
the tokens of errors, and earlier output reaches nothing but the output.
-/

namespace Lox

open Eval

/-! ### Operators -/

namespace Eval

variable (g : Int → Int) (earlier : List Bytes) (σ : State)

theorem unary_renumber (operator : Token) (v : Value) :
    unary (operator.renumber g) v (σ.renumber g earlier) =
      (unary operator v σ).renumber g earlier := by
  unfold unary
  rw [Token.renumber_kind]
  cases operator.kind <;> cases v <;> rfl

theorem arithmetic_renumber (operator : Token) (x y : Number) :
    arithmetic (operator.renumber g) x y (σ.renumber g earlier) =
      (arithmetic operator x y σ).renumber g earlier := by
  unfold arithmetic
  rw [Token.renumber_kind]
  cases operator.kind <;> rfl

theorem add_renumber (operator : Token) (a b : Value) :
    add (operator.renumber g) a b (σ.renumber g earlier) =
      (add operator a b σ).renumber g earlier := by
  cases a <;> cases b <;> rfl

theorem binary_renumber (operator : Token) (a b : Value) :
    binary (operator.renumber g) a b (σ.renumber g earlier) =
      (binary operator a b σ).renumber g earlier := by
  unfold binary
  rw [Token.renumber_kind]
  split
  · rfl
  · rfl
  · exact add_renumber g earlier σ operator a b
  · split
    · exact arithmetic_renumber g earlier σ operator _ _
    · rfl

theorem decides_renumber (operator : Token) (left : Value) :
    decides (operator.renumber g) left = decides operator left := rfl

theorem read_renumber (name : Token) (site : Site) :
    read (name.renumber g) site (σ.renumber g earlier) = (read name site σ).renumber g earlier := by
  cases site with
  | none =>
      simp only [Eval.read, State.renumber_scopes, Token.renumber_lexeme]
      cases σ.scopes.get? State.globals name.lexeme <;> rfl
  | some distance =>
      simp only [Eval.read, State.renumber_scopes, State.renumber_env, Token.renumber_lexeme]
      cases σ.scopes.getAt? σ.env distance name.lexeme <;> rfl

theorem assign_renumber (name : Token) (site : Site) (v : Value) :
    assign (name.renumber g) site v (σ.renumber g earlier) =
      (assign name site v σ).renumber g earlier := by
  cases site with
  | none =>
      simp only [assign, assignGlobal, State.renumber_scopes, Token.renumber_lexeme]
      cases σ.scopes.assign? State.globals name.lexeme v <;> rfl
  | some distance =>
      simp only [assign, State.renumber_scopes, State.renumber_env, Token.renumber_lexeme]
      cases σ.scopes.assignAt? σ.env distance name.lexeme v <;> rfl

theorem boundMethod_ok_renumber (f : Function) (receiver : ObjectId) :
    (Outcome.ok ((σ.renumber g earlier).boundMethod (f.renumber g) receiver).1
      ((σ.renumber g earlier).boundMethod (f.renumber g) receiver).2) =
      (Outcome.ok (σ.boundMethod f receiver).1 (σ.boundMethod f receiver).2).renumber g earlier := by
  rw [State.boundMethod_renumber]
  rfl

theorem get_renumber (v : Value) (name : Token) :
    get v (name.renumber g) (σ.renumber g earlier) = (get v name σ).renumber g earlier := by
  cases v with
  | object id =>
      simp only [get, property, State.renumber_objects, Token.renumber_lexeme,
        State.method?_renumber]
      cases σ.objects[id]? with
      | none => rfl
      | some o =>
          dsimp only
          cases o.fields.lookup name.lexeme with
          | some v => rfl
          | none =>
              dsimp only
              cases σ.method? o.classId name.lexeme with
              | some f => exact boundMethod_ok_renumber g earlier σ f id
              | none => rfl
  | _ => rfl

theorem super_renumber (site : Site) (method : Token) :
    super site (method.renumber g) (σ.renumber g earlier) =
      (super site method σ).renumber g earlier := by
  simp only [super, State.renumber_scopes, State.renumber_env, Token.renumber_lexeme,
    State.method?_renumber]
  split
  case h_1 base receiver hbase hreceiver =>
    cases σ.method? base method.lexeme with
    | some f => exact boundMethod_ok_renumber g earlier σ f receiver
    | none => rfl
  case h_2 => rfl

theorem readClock_renumber :
    readClock (σ.renumber g earlier) = (readClock σ).renumber g earlier := by
  simp [readClock, State.tick_renumber, Outcome.renumber]

theorem arity?_renumber (v : Value) : arity? v (σ.renumber g earlier) = arity? v σ := by
  cases v with
  | function id =>
      simp only [arity?, State.renumber_functions, Array.getElem?_map]
      cases σ.functions[id]? <;> simp [Function.renumber]
  | «class» id =>
      simp only [arity?, State.method?_renumber]
      cases σ.method? id initName <;> simp [Function.renumber]
  | _ => rfl

theorem refusal?_renumber (callee : Value) (given : Nat) :
    refusal? callee given (σ.renumber g earlier) = refusal? callee given σ := by
  unfold refusal?
  rw [arity?_renumber]
  cases arity? callee σ <;> rfl

theorem methodTable_renumber (closure : ScopeId) (methods : List (FunctionDecl Site)) :
    methodTable closure (FunctionDecl.renumberAll g methods) =
      Bindings.mapValues (Function.renumber g) (methodTable closure methods) := by
  have hfold (methods : List (FunctionDecl Site)) (table : Bindings Function) :
      (FunctionDecl.renumberAll g methods).foldl (fun table decl =>
        Bindings.insert decl.name.lexeme ⟨decl, closure, decl.name.lexeme = initName⟩ table)
        (table.mapValues (Function.renumber g)) =
      (methods.foldl (fun table decl =>
        Bindings.insert decl.name.lexeme ⟨decl, closure, decl.name.lexeme = initName⟩ table)
        table).mapValues (Function.renumber g) := by
    induction methods generalizing table with
    | nil => rfl
    | cons d ds ih =>
        rw [List.foldl_cons, ← ih, ← Bindings.insert_mapValues]
        simp [FunctionDecl.renumberAll, Function.renumber]
  exact hfold methods []

theorem finishClass_renumber (name : Token) (superclass : Option ClassId)
    (methods : List (FunctionDecl Site)) :
    finishClass (name.renumber g) superclass (FunctionDecl.renumberAll g methods)
      (σ.renumber g earlier) = (finishClass name superclass methods σ).renumber g earlier := by
  have hscope : methodScope superclass (σ.renumber g earlier) =
      ((methodScope superclass σ).1, (methodScope superclass σ).2.renumber g earlier) := by
    cases superclass <;> rfl
  have hclass := State.newClass_renumber g earlier (methodScope superclass σ).2
    ⟨name.lexeme, superclass, methodTable (methodScope superclass σ).1 methods⟩
  simp only [Class.renumber, ← methodTable_renumber] at hclass
  simp only [finishClass, hscope, Token.renumber_lexeme, hclass, State.renumber_scopes,
    State.renumber_env]
  split <;> rfl

theorem parameters_renumber (f : Function) (arguments : List Value) :
    parameters (f.renumber g) arguments = parameters f arguments := by
  simp [parameters, Function.renumber, List.zip_map_left, List.foldl_map]

theorem result_renumber (f : Function) (c : Completion) :
    result (f.renumber g) c (σ.renumber g earlier) = (result f c σ).renumber g earlier := by
  obtain ⟨decl, closure, isInitializer⟩ := f
  cases isInitializer with
  | true =>
      simp only [result, Function.renumber, State.renumber_scopes, ↓reduceIte]
      cases σ.scopes.getAt? closure 0 thisName <;> rfl
  | false => cases c <;> rfl

end Eval

/-! ### The evaluator -/

/-- With that fuel, everything that the evaluator does is the same on other lines. -/
structure RunsRenumbered (g : Int → Int) (earlier : List Bytes) (n : Nat) : Prop where
  eval : ∀ (e : Expr Site) (σ : State),
    (e.renumber g).eval n (σ.renumber g earlier) = (e.eval n σ).renumber g earlier
  evalAll : ∀ (es : List (Expr Site)) (σ : State),
    Expr.evalAll n (Expr.renumberAll g es) (σ.renumber g earlier) =
      (Expr.evalAll n es σ).renumber g earlier
  call : ∀ (callee : Value) (paren : Token) (arguments : List Value) (σ : State),
    callee.call n (paren.renumber g) arguments (σ.renumber g earlier) =
      (callee.call n paren arguments σ).renumber g earlier
  apply : ∀ (callee : Value) (arguments : List Value) (σ : State),
    callee.apply n arguments (σ.renumber g earlier) =
      (callee.apply n arguments σ).renumber g earlier
  invoke : ∀ (f : Function) (arguments : List Value) (σ : State),
    (f.renumber g).apply n arguments (σ.renumber g earlier) =
      (f.apply n arguments σ).renumber g earlier
  scope : ∀ (body : List (Stmt Site)) (parent : ScopeId) (bindings : Bindings Value) (σ : State),
    Stmt.execScope n (Stmt.renumberAll g body) parent bindings (σ.renumber g earlier) =
      (Stmt.execScope n body parent bindings σ).renumber g earlier
  execAll : ∀ (ss : List (Stmt Site)) (σ : State),
    Stmt.execAll n (Stmt.renumberAll g ss) (σ.renumber g earlier) =
      (Stmt.execAll n ss σ).renumber g earlier
  exec : ∀ (s : Stmt Site) (σ : State),
    (s.renumber g).exec n (σ.renumber g earlier) = (s.exec n σ).renumber g earlier
  loop : ∀ (condition : Expr Site) (body : Stmt Site) (σ : State),
    Stmt.loop n (condition.renumber g) (body.renumber g) (σ.renumber g earlier) =
      (Stmt.loop n condition body σ).renumber g earlier

namespace RunsRenumbered

variable {g : Int → Int} {earlier : List Bytes} {n : Nat}

theorem eval_succ (h : RunsRenumbered g earlier n) (e : Expr Site) (σ : State) :
    (e.renumber g).eval (n + 1) (σ.renumber g earlier) =
      (e.eval (n + 1) σ).renumber g earlier := by
  cases e with
  | assign name site value =>
      simp only [Expr.renumber, Expr.eval, h.eval]
      exact Outcome.renumber_bind fun v σ => assign_renumber g earlier σ name site v
  | binary left operator right =>
      simp only [Expr.renumber, Expr.eval, h.eval]
      refine Outcome.renumber_bind fun a σ => ?_
      rw [h.eval]
      exact Outcome.renumber_bind fun b σ => binary_renumber g earlier σ operator a b
  | call callee paren arguments =>
      simp only [Expr.renumber, Expr.eval, h.eval]
      refine Outcome.renumber_bind fun f σ => ?_
      rw [h.evalAll]
      exact Outcome.renumber_bind fun vs σ => h.call f paren vs σ
  | get object name =>
      simp only [Expr.renumber, Expr.eval, h.eval]
      exact Outcome.renumber_bind fun v σ => get_renumber g earlier σ v name
  | group inner => simp only [Expr.renumber, Expr.eval, h.eval]
  | literal value =>
      simp only [Expr.renumber, Expr.eval]
      rfl
  | logical left operator right =>
      simp only [Expr.renumber, Expr.eval, h.eval]
      refine Outcome.renumber_bind fun a σ => ?_
      rw [decides_renumber, h.eval]
      split <;> rfl
  | set object name value =>
      simp only [Expr.renumber, Expr.eval, h.eval]
      refine Outcome.renumber_bind fun o σ => ?_
      cases o with
      | object id =>
          dsimp only
          rw [h.eval]
          exact Outcome.renumber_bind fun v σ => rfl
      | _ => rfl
  | super keyword site method =>
      simp only [Expr.renumber, Expr.eval]
      exact super_renumber g earlier σ site method
  | this keyword site =>
      simp only [Expr.renumber, Expr.eval]
      exact read_renumber g earlier σ keyword site
  | unary operator operand =>
      simp only [Expr.renumber, Expr.eval, h.eval]
      exact Outcome.renumber_bind fun v σ => unary_renumber g earlier σ operator v
  | read name site =>
      simp only [Expr.renumber, Expr.eval]
      exact read_renumber g earlier σ name site

theorem evalAll_succ (h : RunsRenumbered g earlier n) (es : List (Expr Site)) (σ : State) :
    Expr.evalAll (n + 1) (Expr.renumberAll g es) (σ.renumber g earlier) =
      (Expr.evalAll (n + 1) es σ).renumber g earlier := by
  cases es with
  | nil =>
      simp only [Expr.renumberAll, Expr.evalAll]
      rfl
  | cons e es =>
      simp only [Expr.renumberAll, Expr.evalAll, h.eval]
      refine Outcome.renumber_bind fun v σ => ?_
      rw [h.evalAll]
      exact Outcome.renumber_bind fun vs σ => rfl

theorem call_succ (h : RunsRenumbered g earlier n) (callee : Value) (paren : Token)
    (arguments : List Value) (σ : State) :
    callee.call (n + 1) (paren.renumber g) arguments (σ.renumber g earlier) =
      (callee.call (n + 1) paren arguments σ).renumber g earlier := by
  simp only [Value.call, refusal?_renumber]
  cases refusal? callee arguments.length σ with
  | some cause => rfl
  | none =>
      have hentered := h.apply callee arguments { σ with depth := σ.depth + 1 }
      exact (congrArg (Outcome.leaving · _) hentered).trans (Outcome.renumber_leaving fun _ => rfl)

theorem apply_succ (h : RunsRenumbered g earlier n) (callee : Value) (arguments : List Value)
    (σ : State) :
    callee.apply (n + 1) arguments (σ.renumber g earlier) =
      (callee.apply (n + 1) arguments σ).renumber g earlier := by
  cases callee with
  | function id =>
      simp only [Value.apply, State.renumber_functions, Array.getElem?_map]
      cases σ.functions[id]? with
      | some f => exact h.invoke f arguments σ
      | none => rfl
  | clock =>
      simp only [Value.apply]
      exact readClock_renumber g earlier σ
  | «class» id =>
      have hobject : (σ.renumber g earlier).newObject ⟨id, []⟩ =
        ((σ.newObject ⟨id, []⟩).1, (σ.newObject ⟨id, []⟩).2.renumber g earlier) := rfl
      simp only [Value.apply, hobject, State.method?_renumber]
      cases (σ.newObject ⟨id, []⟩).2.method? id initName with
      | some init =>
          dsimp only [Option.map_some]
          rw [State.bindMethod_renumber]
          dsimp only
          rw [h.invoke]
          exact Outcome.renumber_bind fun _ _ => rfl
      | none => rfl
  | _ =>
      simp only [Value.apply]
      rfl

theorem invoke_succ (h : RunsRenumbered g earlier n) (f : Function) (arguments : List Value)
    (σ : State) :
    (f.renumber g).apply (n + 1) arguments (σ.renumber g earlier) =
      (f.apply (n + 1) arguments σ).renumber g earlier := by
  simp only [Function.apply, parameters_renumber]
  have hbody := h.scope f.decl.body f.closure (parameters f arguments) σ
  rw [← FunctionDecl.renumber_body] at hbody
  exact (congrArg (Outcome.bind · _) hbody).trans
    (Outcome.renumber_bind fun c σ => result_renumber g earlier σ f c)

theorem scope_succ (h : RunsRenumbered g earlier n) (body : List (Stmt Site)) (parent : ScopeId)
    (bindings : Bindings Value) (σ : State) :
    Stmt.execScope (n + 1) (Stmt.renumberAll g body) parent bindings (σ.renumber g earlier) =
      (Stmt.execScope (n + 1) body parent bindings σ).renumber g earlier := by
  simp only [Stmt.execScope]
  have hentered := h.execAll body (σ.enter parent bindings)
  exact (congrArg (Outcome.leaving · _) hentered).trans (Outcome.renumber_leaving fun _ => rfl)

theorem execAll_succ (h : RunsRenumbered g earlier n) (ss : List (Stmt Site)) (σ : State) :
    Stmt.execAll (n + 1) (Stmt.renumberAll g ss) (σ.renumber g earlier) =
      (Stmt.execAll (n + 1) ss σ).renumber g earlier := by
  cases ss with
  | nil =>
      simp only [Stmt.renumberAll, Stmt.execAll]
      rfl
  | cons s ss =>
      simp only [Stmt.renumberAll, Stmt.execAll, h.exec]
      refine Outcome.renumber_bind fun c σ => ?_
      cases c with
      | normal => exact h.execAll ss σ
      | returned v => rfl

theorem exec_succ (h : RunsRenumbered g earlier n) (s : Stmt Site) (σ : State) :
    (s.renumber g).exec (n + 1) (σ.renumber g earlier) =
      (s.exec (n + 1) σ).renumber g earlier := by
  cases s with
  | block body =>
      simp only [Stmt.renumber, Stmt.exec, State.renumber_env]
      exact h.scope body σ.env [] σ
  | «class» name superclass methods =>
      have hdefined : (σ.renumber g earlier).define σ.env name.lexeme .nil =
        (σ.define σ.env name.lexeme .nil).renumber g earlier := rfl
      simp only [Stmt.renumber, Stmt.exec, Token.renumber_lexeme, State.renumber_env, hdefined]
      cases superclass with
      | none => exact finishClass_renumber g earlier _ name none methods
      | some base =>
          simp only [Option.map_some, renumberBase, read_renumber]
          refine Outcome.renumber_bind fun v σ => ?_
          cases v with
          | «class» id => exact finishClass_renumber g earlier σ name (some id) methods
          | _ => rfl
  | expr e =>
      simp only [Stmt.renumber, Stmt.exec, h.eval]
      exact Outcome.renumber_bind fun _ _ => rfl
  | function decl =>
      simp only [Stmt.renumber, Stmt.exec, State.renumber_env, FunctionDecl.renumber_name,
        Token.renumber_lexeme]
      have hvalue := State.functionValue_renumber g earlier σ ⟨decl, σ.env, false⟩
      simp only [Function.renumber] at hvalue
      rw [hvalue]
      rfl
  | ifThen condition yes =>
      simp only [Stmt.renumber, Stmt.exec, h.eval]
      refine Outcome.renumber_bind fun v σ => ?_
      simp only [h.exec]
      split <;> rfl
  | ifElse condition yes no =>
      simp only [Stmt.renumber, Stmt.exec, h.eval]
      refine Outcome.renumber_bind fun v σ => ?_
      simp only [h.exec]
      split <;> rfl
  | print e =>
      simp only [Stmt.renumber, Stmt.exec, h.eval]
      refine Outcome.renumber_bind fun v σ => ?_
      rw [State.text_renumber]
      rfl
  | «return» keyword value =>
      cases value with
      | none =>
          simp only [Stmt.renumber, Stmt.exec, Option.map_none]
          rfl
      | some e =>
          simp only [Stmt.renumber, Stmt.exec, Option.map_some, h.eval]
          exact Outcome.renumber_bind fun _ _ => rfl
  | var name init =>
      cases init with
      | none =>
          simp only [Stmt.renumber, Stmt.exec, Option.map_none]
          rfl
      | some e =>
          simp only [Stmt.renumber, Stmt.exec, Option.map_some, h.eval]
          exact Outcome.renumber_bind fun _ _ => rfl
  | «while» condition body =>
      simp only [Stmt.renumber, Stmt.exec]
      exact h.loop condition body σ

theorem loop_succ (h : RunsRenumbered g earlier n) (condition : Expr Site) (body : Stmt Site)
    (σ : State) :
    Stmt.loop (n + 1) (condition.renumber g) (body.renumber g) (σ.renumber g earlier) =
      (Stmt.loop (n + 1) condition body σ).renumber g earlier := by
  simp only [Stmt.loop, h.eval]
  refine Outcome.renumber_bind fun v σ => ?_
  split
  · rw [h.exec]
    refine Outcome.renumber_bind fun c σ => ?_
    cases c with
    | normal => exact h.loop condition body σ
    | returned v => rfl
  · rfl

end RunsRenumbered

/-- The evaluator takes no notice of lines and of earlier output. -/
theorem runsRenumbered (g : Int → Int) (earlier : List Bytes) (n : Nat) :
    RunsRenumbered g earlier n := by
  induction n with
  | zero =>
      constructor <;> intros <;>
        simp only [Expr.eval, Expr.evalAll, Value.call, Value.apply, Function.apply,
          Stmt.execScope, Stmt.execAll, Stmt.exec, Stmt.loop] <;> rfl
  | succ n ih =>
      exact ⟨ih.eval_succ, ih.evalAll_succ, ih.call_succ, ih.apply_succ, ih.invoke_succ,
        ih.scope_succ, ih.execAll_succ, ih.exec_succ, ih.loop_succ⟩

theorem runAll_renumber (g : Int → Int) (earlier : List Bytes) (n : Nat) (ss : List (Stmt Site))
    (σ : State) :
    runAll n (Stmt.renumberAll g ss) (σ.renumber g earlier) =
      (runAll n ss σ).renumber g earlier := by
  induction ss generalizing σ with
  | nil => rfl
  | cons s ss ih =>
      rw [Stmt.renumberAll, runAll, runAll, (runsRenumbered g earlier n).exec]
      exact Outcome.renumber_bind fun _ σ => ih σ

end Lox
