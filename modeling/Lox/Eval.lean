import Lox.Eval.Operators

/-!
Evaluation of resolved trees. The first argument bounds the depth of the recursion; a computation that
ends within a bound ends in the same way within every larger one.
-/

namespace Lox

namespace Eval

/-- The most calls that may be active at once. -/
def maxDepth : Nat := 10000

/-- A call that is refused: of something that cannot be called, with too few or too many arguments, or
with too many calls active. -/
def refusal? (callee : Value) (given : Nat) (σ : State) : Option RuntimeError.Cause :=
  match arity? callee σ with
  | none => some .notCallable
  | some expected =>
      if given ≠ expected then some (.arity expected given)
      else if maxDepth ≤ σ.depth then some .stackOverflow
      else none

/-- What the call of a function yields when its body has ended. -/
def result (f : Function) : Completion → State → Outcome Value
  | completion, σ =>
      if f.isInitializer then
        match σ.scopes.getAt? f.closure 0 thisName with
        | some v => .ok v σ
        | none => .broken σ
      else
        match completion with
        | .normal => .ok .nil σ
        | .returned v => .ok v σ

/-- Parameters bound to arguments; of two parameters with one name the last counts. -/
def parameters (f : Function) (arguments : List Value) : Bindings Value :=
  (f.decl.params.zip arguments).foldl (fun bindings (param, v) =>
    Bindings.insert param.lexeme v bindings) []

end Eval

open Eval

mutual

def Expr.eval : Nat → Expr Site → State → Outcome Value
  | 0, _, _ => .outOfFuel
  | n + 1, e, σ =>
      match e with
      | .assign name site value =>
          (Expr.eval n value σ).bind fun v σ => assign name site v σ
      | .binary left operator right =>
          (Expr.eval n left σ).bind fun a σ =>
            (Expr.eval n right σ).bind fun b σ => binary operator a b σ
      | .call callee paren arguments =>
          (Expr.eval n callee σ).bind fun f σ =>
            (Expr.evalAll n arguments σ).bind fun vs σ => Value.call n f paren vs σ
      | .get object name => (Expr.eval n object σ).bind fun v σ => get v name σ
      | .group inner => Expr.eval n inner σ
      | .literal value => .ok value.value σ
      | .logical left operator right =>
          (Expr.eval n left σ).bind fun a σ =>
            if decides operator a then .ok a σ else Expr.eval n right σ
      | .set object name value =>
          (Expr.eval n object σ).bind fun o σ =>
            match o with
            | .object id =>
                (Expr.eval n value σ).bind fun v σ => .ok v (σ.setField id name.lexeme v)
            | _ => fail name .noFields σ
      | .super _ site method => super site method σ
      | .this keyword site => read keyword site σ
      | .unary operator operand =>
          (Expr.eval n operand σ).bind fun v σ => unary operator v σ
      | .read name site => read name site σ

/-- Arguments, from left to right. -/
def Expr.evalAll : Nat → List (Expr Site) → State → Outcome (List Value)
  | 0, _, _ => .outOfFuel
  | n + 1, es, σ =>
      match es with
      | [] => .ok [] σ
      | e :: es =>
          (Expr.eval n e σ).bind fun v σ =>
            (Expr.evalAll n es σ).bind fun vs σ => .ok (v :: vs) σ

/-- A call with its arguments evaluated, unless it is refused. -/
def Value.call : Nat → Value → Token → List Value → State → Outcome Value
  | 0, _, _, _, _ => .outOfFuel
  | n + 1, callee, paren, arguments, σ =>
      match refusal? callee arguments.length σ with
      | some cause => fail paren cause σ
      | none =>
          (Value.apply n callee arguments { σ with depth := σ.depth + 1 }).leaving fun σ =>
            { σ with depth := σ.depth - 1 }

def Value.apply : Nat → Value → List Value → State → Outcome Value
  | 0, _, _, _ => .outOfFuel
  | n + 1, callee, arguments, σ =>
      match callee with
      | .function id =>
          match σ.functions[id]? with
          | some f => Function.apply n f arguments σ
          | none => .broken σ
      | .clock => readClock σ
      | .class id =>
          let (object, σ) := σ.newObject ⟨id, []⟩
          match σ.method? id initName with
          | some init =>
              let (init, σ) := σ.bindMethod init object
              (Function.apply n init arguments σ).bind fun _ σ => .ok (.object object) σ
          | none => .ok (.object object) σ
      | _ => .broken σ

def Function.apply : Nat → Function → List Value → State → Outcome Value
  | 0, _, _, _ => .outOfFuel
  | n + 1, f, arguments, σ =>
      (Stmt.execScope n f.decl.body f.closure (parameters f arguments) σ).bind (result f)

/-- Runs statements in a new scope and leaves it however they end. -/
def Stmt.execScope : Nat → List (Stmt Site) → ScopeId → Bindings Value → State → Outcome Completion
  | 0, _, _, _, _ => .outOfFuel
  | n + 1, body, parent, bindings, σ =>
      let previous := σ.env
      (Stmt.execAll n body (σ.enter parent bindings)).leaving fun σ => { σ with env := previous }

def Stmt.execAll : Nat → List (Stmt Site) → State → Outcome Completion
  | 0, _, _ => .outOfFuel
  | n + 1, ss, σ =>
      match ss with
      | [] => .ok .normal σ
      | s :: ss =>
          (Stmt.exec n s σ).bind fun completion σ =>
            match completion with
            | .normal => Stmt.execAll n ss σ
            | .returned v => .ok (.returned v) σ

def Stmt.exec : Nat → Stmt Site → State → Outcome Completion
  | 0, _, _ => .outOfFuel
  | n + 1, s, σ =>
      match s with
      | .block body =>
          let env := σ.env
          Stmt.execScope n body env [] σ
      | .class name superclass methods =>
          let σ := σ.define σ.env name.lexeme .nil
          match superclass with
          | none => finishClass name none methods σ
          | some (base, site) =>
              (read base site σ).bind fun v σ =>
                match v with
                | .class id => finishClass name (some id) methods σ
                | _ => fail base .superclassNotClass σ
      | .expr e => (Expr.eval n e σ).bind fun _ σ => .ok .normal σ
      | .function decl =>
          let (v, σ) := σ.functionValue ⟨decl, σ.env, false⟩
          .ok .normal (σ.define σ.env decl.name.lexeme v)
      | .ifThen condition thenBranch =>
          (Expr.eval n condition σ).bind fun v σ =>
            if v.truthy then Stmt.exec n thenBranch σ else .ok .normal σ
      | .ifElse condition thenBranch elseBranch =>
          (Expr.eval n condition σ).bind fun v σ =>
            if v.truthy then Stmt.exec n thenBranch σ else Stmt.exec n elseBranch σ
      | .print e => (Expr.eval n e σ).bind fun v σ => .ok .normal (σ.print (σ.text v))
      | .return _ none => .ok (.returned .nil) σ
      | .return _ (some e) => (Expr.eval n e σ).bind fun v σ => .ok (.returned v) σ
      | .var name none => .ok .normal (σ.define σ.env name.lexeme .nil)
      | .var name (some e) =>
          (Expr.eval n e σ).bind fun v σ => .ok .normal (σ.define σ.env name.lexeme v)
      | .while condition body => Stmt.loop n condition body σ

def Stmt.loop : Nat → Expr Site → Stmt Site → State → Outcome Completion
  | 0, _, _, _ => .outOfFuel
  | n + 1, condition, body, σ =>
      (Expr.eval n condition σ).bind fun v σ =>
        if v.truthy then
          (Stmt.exec n body σ).bind fun completion σ =>
            match completion with
            | .normal => Stmt.loop n condition body σ
            | .returned v => .ok (.returned v) σ
        else
          .ok .normal σ

end

/-- Runs the statements of a program one after another. A `return` ends only its own statement. -/
def runAll (n : Nat) : List (Stmt Site) → State → Outcome Unit
  | [], σ => .ok () σ
  | s :: ss, σ => (Stmt.exec n s σ).bind fun _ σ => runAll n ss σ

/-- Runs a program on the globals. -/
def interpret (n : Nat) (program : List (Stmt Site)) (σ : State) : Outcome Unit :=
  runAll n program { σ with env := State.globals }

end Lox
