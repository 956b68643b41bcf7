import Lox.RuntimeError
import Lox.Store

/-!
How a computation ends. A runtime error keeps the state that it leaves behind. So does a broken
computation, which has met what no checked program leads to. One without fuel says nothing about the
program.
-/

namespace Lox

inductive Outcome (α : Type) where
  | ok (value : α) (state : State)
  | error (e : RuntimeError) (state : State)
  | broken (state : State)
  | outOfFuel

namespace Outcome

variable {α β : Type}

@[inline]
def bind (o : Outcome α) (f : α → State → Outcome β) : Outcome β :=
  match o with
  | .ok value σ => f value σ
  | .error e σ => .error e σ
  | .broken σ => .broken σ
  | .outOfFuel => .outOfFuel

/-- Changes the state that is left, however the computation ended. -/
@[inline]
def leaving (o : Outcome α) (f : State → State) : Outcome α :=
  match o with
  | .ok value σ => .ok value (f σ)
  | .error e σ => .error e (f σ)
  | .broken σ => .broken (f σ)
  | .outOfFuel => .outOfFuel

end Outcome

/-- How a statement ends: it was executed to its end, or it returns from the function around it. -/
inductive Completion where
  | normal
  | returned (value : Value)
  deriving DecidableEq, Repr

end Lox
