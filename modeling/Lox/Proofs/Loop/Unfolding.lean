import Lox.Proofs.Eval.Fuel
import Lox.Proofs.Loop.Rule
import Lox.Proofs.Resolution.WellFormed

/-!
# What the tree of a loop does

The tree is executed round by round like the clauses, except that each round with an increment opens
a scope. It takes a few steps more for the same, so each of the two ends with somewhat more fuel than
the other one needs.
-/

namespace Lox

open Resolution

namespace Outcome

theorem bind_assoc {α β γ : Type} (o : Outcome α) (f : α → State → Outcome β)
    (g : β → State → Outcome γ) :
    (o.bind f).bind g = o.bind fun a σ => (f a σ).bind g := by
  cases o <;> rfl

theorem andThen_normal (o : Outcome Completion) : o.andThen (fun σ => .ok .normal σ) = o := by
  cases o with
  | ok c σ => cases c <;> rfl
  | _ => rfl

theorem UpTo.trans {α : Type} {o o' o'' : Outcome α} (h : o.UpTo o') (h' : o'.UpTo o'') :
    o.UpTo o'' := by
  rcases h with rfl | rfl
  · exact .inl rfl
  · exact h'

theorem UpTo.andThen {o o' : Outcome Completion} (h : o.UpTo o')
    {next next' : State → Outcome Completion} (hnext : ∀ σ, (next σ).UpTo (next' σ)) :
    (o.andThen next).UpTo (o'.andThen next') := by
  apply h.bind
  intro c σ
  cases c with
  | normal => exact hnext σ
  | returned v => exact upTo_refl _

end Outcome

theorem State.within_upTo (σ : State) {run run' : State → Outcome Completion}
    (h : ∀ σ, (run σ).UpTo (run' σ)) : (σ.within run).UpTo (σ.within run') :=
  (h _).leaving _

theorem rounds_upTo {goesOn goesOn' : Nat → State → Outcome Bool}
    {round round' : Nat → State → Outcome Completion} (k : Nat)
    (hgoesOn : ∀ n σ, (goesOn n σ).UpTo (goesOn' (n + k) σ))
    (hround : ∀ n σ, (round n σ).UpTo (round' (n + k) σ)) (n : Nat) (σ : State) :
    (rounds goesOn round n σ).UpTo (rounds goesOn' round' (n + k) σ) := by
  induction n generalizing σ with
  | zero => exact .inl rfl
  | succ n ih =>
      rw [Nat.succ_add, rounds, rounds]
      apply (hgoesOn n σ).bind
      intro more σ
      split
      · exact (hround n σ).andThen ih
      · exact Outcome.upTo_refl _

/-! ### Statements -/

theorem Stmt.loop_eq_rounds (condition : Expr Site) (body : Stmt Site) (n : Nat) (σ : State) :
    Stmt.loop n condition body σ = rounds condition.holds (fun n => body.exec n) n σ := by
  induction n generalizing σ with
  | zero => rfl
  | succ n ih =>
      have hrest : rounds condition.holds (fun n => body.exec n) n = Stmt.loop n condition body :=
        funext fun σ => (ih σ).symm
      rw [Stmt.loop, rounds, hrest, Expr.holds, Outcome.bind_assoc]
      rfl

/-- A block of two statements. -/
theorem Stmt.exec_pair (a b : Stmt Site) (n : Nat) (σ : State) :
    (Stmt.block [a, b]).exec (n + 5) σ =
      σ.within fun σ => (a.exec (n + 2) σ).andThen (b.exec (n + 1)) := by
  have hlast : Stmt.execAll (n + 2) [b] = b.exec (n + 1) := by
    funext σ
    rw [Stmt.execAll]
    exact (b.exec (n + 1) σ).andThen_normal
  calc (Stmt.block [a, b]).exec (n + 5) σ
      = σ.within (Stmt.execAll (n + 3) [a, b]) := by rw [Stmt.exec, Stmt.execScope]; rfl
    _ = σ.within fun σ => (a.exec (n + 2) σ).andThen (Stmt.execAll (n + 2) [b]) := rfl
    _ = σ.within fun σ => (a.exec (n + 2) σ).andThen (b.exec (n + 1)) := by rw [hlast]

theorem Stmt.exec_while (condition : Expr Site) (body : Stmt Site) (n : Nat) (σ : State) :
    (Stmt.while condition body).exec (n + 1) σ =
      rounds condition.holds (fun n => body.exec n) n σ := by
  rw [Stmt.exec, Stmt.loop_eq_rounds]

theorem Stmt.exec_upTo {n m : Nat} (h : n ≤ m) (s : Stmt Site) (σ : State) :
    (s.exec n σ).UpTo (s.exec m σ) :=
  Task.run_upTo h (.exec s) σ

theorem Expr.eval_upTo {n m : Nat} (h : n ≤ m) (e : Expr Site) (σ : State) :
    (e.eval n σ).UpTo (e.eval m σ) :=
  Task.run_upTo h (.eval e) σ

namespace ForClauses

/-! ### Rounds -/

/-- As the tree has it, a round with an increment stands in a scope of its own. -/
def roundWithin (c : ForClauses Site) (n : Nat) (σ : State) : Outcome Completion :=
  match c.increment with
  | some _ => σ.within (c.round n)
  | none => c.round n σ

def execWithin (c : ForClauses Site) : Nat → State → Outcome Completion :=
  behind c.init (rounds c.goesOn c.roundWithin)

section

variable (c : ForClauses Site)

theorem goesOn_upTo (n : Nat) (σ : State) :
    (c.goesOn n σ).UpTo ((c.condition.getD (.literal (.bool true))).holds (n + 5) σ) := by
  unfold goesOn
  cases c.condition with
  | some e => exact (e.eval_upTo (Nat.le_add_right n 5) σ).bind fun _ _ => Outcome.upTo_refl _
  | none => exact Outcome.upTo_refl _

theorem upTo_goesOn (n : Nat) (σ : State) :
    ((c.condition.getD (.literal (.bool true))).holds n σ).UpTo (c.goesOn (n + 2) σ) := by
  unfold goesOn
  cases c.condition with
  | some e => exact (e.eval_upTo (Nat.le_add_right n 2) σ).bind fun _ _ => Outcome.upTo_refl _
  | none =>
      cases n with
      | zero => exact .inl rfl
      | succ n => exact Outcome.upTo_refl _

theorem roundWithin_upTo (n : Nat) (σ : State) :
    (c.roundWithin n σ).UpTo (c.turn.exec (n + 5) σ) := by
  unfold roundWithin turn round advance
  cases c.increment with
  | some e =>
      rw [Stmt.exec_pair]
      apply σ.within_upTo
      intro σ
      apply (c.body.exec_upTo (Nat.le_add_right n 2) σ).andThen
      intro σ
      rw [Stmt.exec]
      exact Outcome.upTo_refl _
  | none =>
      rw [Outcome.andThen_normal]
      exact c.body.exec_upTo (Nat.le_add_right n 5) σ

theorem upTo_roundWithin (n : Nat) (σ : State) :
    (c.turn.exec n σ).UpTo (c.roundWithin (n + 2) σ) := by
  unfold roundWithin turn round advance
  cases c.increment with
  | some e =>
      apply (Stmt.exec_upTo (Nat.le_add_right n 5) _ σ).trans
      rw [Stmt.exec_pair]
      apply σ.within_upTo
      intro σ
      apply (Outcome.upTo_refl _).andThen
      intro σ
      rw [Stmt.exec]
      exact (e.eval_upTo (Nat.le_add_right n 2) σ).bind fun _ _ => Outcome.upTo_refl _
  | none =>
      dsimp only
      rw [Outcome.andThen_normal]
      exact c.body.exec_upTo (Nat.le_add_right n 2) σ

/-! ### The whole statement -/

theorem upTo_rounds (n : Nat) (σ : State) :
    (c.loop.exec (n + 1) σ).UpTo (rounds c.goesOn c.roundWithin (n + 2) σ) := by
  rw [loop, Stmt.exec_while]
  exact rounds_upTo 2 c.upTo_goesOn c.upTo_roundWithin n σ

theorem rounds_upTo_loop (n : Nat) (σ : State) :
    (rounds c.goesOn c.roundWithin n σ).UpTo (c.loop.exec (n + 6) σ) := by
  rw [loop, Stmt.exec_while]
  exact rounds_upTo 5 c.goesOn_upTo c.roundWithin_upTo n σ

theorem tree_upTo (n : Nat) (σ : State) : (c.tree.exec n σ).UpTo (c.execWithin (n + 2) σ) := by
  unfold tree execWithin behind
  cases c.init with
  | some s =>
      apply (Stmt.exec_upTo (Nat.le_add_right n 5) _ σ).trans
      rw [Stmt.exec_pair]
      apply σ.within_upTo
      intro σ
      exact (Outcome.upTo_refl _).andThen (c.upTo_rounds n)
  | none => exact (c.loop.exec_upTo (Nat.le_add_right n 1) σ).trans (c.upTo_rounds n σ)

theorem upTo_tree (n : Nat) (σ : State) : (c.execWithin n σ).UpTo (c.tree.exec (n + 10) σ) := by
  unfold tree execWithin behind
  cases c.init with
  | some s =>
      dsimp only
      rw [Stmt.exec_pair]
      apply σ.within_upTo
      intro σ
      exact (s.exec_upTo (by omega) σ).andThen (c.rounds_upTo_loop n)
  | none => exact (c.rounds_upTo_loop n σ).trans (c.loop.exec_upTo (by omega) σ)

end

end ForClauses

end Lox
