import Lox.Eval
import Lox.Resolution.Bind
import Lox.Tree.Grammar.Statement

/-!
# The rule for loops with clauses

What a `for` statement does, said without the tree that is made of it. The initializer runs once, in
a scope of its own around the loop. Condition, increment and body stand in that scope, so all rounds
share one loop variable, and no round opens a scope.
-/

namespace Lox

open Resolution

/-! ### Statements in order -/

/-- Goes on behind a statement that was executed to its end. One that returns skips the rest. -/
def Outcome.andThen (o : Outcome Completion) (next : State → Outcome Completion) :
    Outcome Completion :=
  o.bind fun completion σ =>
    match completion with
    | .normal => next σ
    | .returned v => .ok (.returned v) σ

/-- Runs in a new scope, which is left however the computation ends. -/
def State.within (σ : State) (run : State → Outcome Completion) : Outcome Completion :=
  (run (σ.enter σ.env [])).leaving fun σ' => { σ' with env := σ.env }

def Expr.holds (condition : Expr Site) (n : Nat) (σ : State) : Outcome Bool :=
  (condition.eval n σ).bind fun v σ => .ok v.truthy σ

/-- Round after round as long as there is another one. A round that returns leaves the loop. -/
def rounds (goesOn : Nat → State → Outcome Bool) (round : Nat → State → Outcome Completion) :
    Nat → State → Outcome Completion
  | 0, _ => .outOfFuel
  | n + 1, σ =>
      (goesOn n σ).bind fun more σ =>
        if more then (round n σ).andThen (rounds goesOn round n) else .ok .normal σ

/-- A loop behind its initializer, which runs once and in whose scope the loop stands. -/
def behind (init : Option (Stmt Site)) (loop : Nat → State → Outcome Completion) (n : Nat)
    (σ : State) : Outcome Completion :=
  match init with
  | some s => σ.within fun σ => (s.exec n σ).andThen (loop n)
  | none => loop n σ

/-! ### Clauses -/

/-- The clauses of a `for` statement and its body. -/
structure ForClauses (ρ : Type) where
  init : Option (Stmt ρ)
  condition : Option (Expr ρ)
  increment : Option (Expr ρ)
  body : Stmt ρ

namespace ForClauses

/-- There is another round as long as the condition is true, and always without one. -/
def goesOn (c : ForClauses Site) (n : Nat) (σ : State) : Outcome Bool :=
  match c.condition with
  | some e => e.holds n σ
  | none => .ok true σ

def advance (c : ForClauses Site) (n : Nat) (σ : State) : Outcome Completion :=
  match c.increment with
  | some e => (e.eval n σ).bind fun _ σ => .ok .normal σ
  | none => .ok .normal σ

/-- The increment is evaluated behind a body that was executed to its end. -/
def round (c : ForClauses Site) (n : Nat) (σ : State) : Outcome Completion :=
  (c.body.exec n σ).andThen (c.advance n)

def exec (c : ForClauses Site) : Nat → State → Outcome Completion :=
  behind c.init (rounds c.goesOn c.round)

/-! ### Names -/

/-- What surrounds condition, increment and body: behind an initializer also its scope. -/
def inner (ctx : Context) (c : ForClauses Unit) : Context :=
  match c.init with
  | some s => (ctx.enter []).after s
  | none => ctx

/-- The clauses with their names bound. -/
def resolve (ctx : Context) (c : ForClauses Unit) : ForClauses Site where
  init := c.init.map (Stmt.resolve (ctx.enter []))
  condition := c.condition.map (Expr.resolve (c.inner ctx))
  increment := c.increment.map (Expr.resolve (c.inner ctx))
  body := c.body.resolve (c.inner ctx)

/-! ### The tree -/

variable {ρ : Type}

/-- What the tree repeats: with an increment, a block of the body and the increment. -/
def turn (c : ForClauses ρ) : Stmt ρ :=
  match c.increment with
  | some e => .block [c.body, .expr e]
  | none => c.body

def loop (c : ForClauses ρ) : Stmt ρ :=
  .while (c.condition.getD (.literal (.bool true))) c.turn

/-- The tree that stands for the statement. -/
def tree (c : ForClauses ρ) : Stmt ρ :=
  match c.init with
  | some s => .block [s, c.loop]
  | none => c.loop

theorem forLoop_eq_tree (c : ForClauses Unit) :
    Parser.forLoop c.init c.condition c.increment c.body = c.tree := by
  obtain ⟨init, condition, increment, body⟩ := c
  cases init <;> cases increment <;> rfl

end ForClauses

end Lox
