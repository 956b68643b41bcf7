import Lox.Proofs.Eval.Task

/-!
# More fuel

A task that ends within a bound ends in the same way within every larger one, so how a task ends
does not depend on the fuel that is enough for it.
-/

namespace Lox

namespace Outcome

variable {α β : Type}

/-- The same end, unless the fuel was not enough. -/
def UpTo (o o' : Outcome α) : Prop :=
  o = .outOfFuel ∨ o = o'

theorem upTo_refl (o : Outcome α) : o.UpTo o :=
  .inr rfl

theorem UpTo.leaving {o o' : Outcome α} (h : o.UpTo o') (f : State → State) :
    (o.leaving f).UpTo (o'.leaving f) := by
  rcases h with rfl | rfl
  · exact .inl rfl
  · exact upTo_refl _

theorem UpTo.bind {o o' : Outcome α} (h : o.UpTo o') {f f' : α → State → Outcome β}
    (hf : ∀ a σ, (f a σ).UpTo (f' a σ)) : (o.bind f).UpTo (o'.bind f') := by
  rcases h with rfl | rfl
  · exact .inl rfl
  · cases o with
    | ok a σ => exact hf a σ
    | error e σ => exact upTo_refl _
    | broken σ => exact upTo_refl _
    | outOfFuel => exact upTo_refl _

end Outcome

theorem Work.run_upTo {α : Type} {go go' : (t : Task) → State → Outcome t.Answer}
    (h : ∀ t σ, (go t σ).UpTo (go' t σ)) (w : Work α) : (w.run go).UpTo (w.run go') := by
  induction w with
  | done o => exact Outcome.upTo_refl o
  | enter t σ leave next ih => exact ((h t σ).leaving leave).bind fun a σ => ih a σ

theorem Task.run_upTo_succ (n : Nat) (t : Task) (σ : State) : (t.run n σ).UpTo (t.run (n + 1) σ) := by
  induction n generalizing t σ with
  | zero => exact .inl (t.run_zero σ)
  | succ n ih =>
      rw [t.run_succ n, t.run_succ (n + 1)]
      exact Work.run_upTo ih (t.work σ)

theorem Task.run_upTo {n m : Nat} (h : n ≤ m) (t : Task) (σ : State) :
    (t.run n σ).UpTo (t.run m σ) := by
  induction h with
  | refl => exact Outcome.upTo_refl _
  | @step m _ ih =>
      rcases ih with ih | ih
      · exact .inl ih
      · rw [ih]
        exact t.run_upTo_succ m σ

theorem runAll_upTo {n m : Nat} (h : n ≤ m) (ss : List (Stmt Site)) (σ : State) :
    (runAll n ss σ).UpTo (runAll m ss σ) := by
  induction ss generalizing σ with
  | nil => exact Outcome.upTo_refl _
  | cons s ss ih => exact (Task.run_upTo h (.exec s) σ).bind fun _ σ => ih σ

end Lox
