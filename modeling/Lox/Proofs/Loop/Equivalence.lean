import Lox.Proofs.Loop.Eval
import Lox.Proofs.Loop.Unfolding

/-!
# The rule and the tree

The clauses of a loop, executed by the rule, and the tree that stands for them end in the same way.
In the tree body and increment stand in one more block, so their names are bound one scope further
out, and each round opens a scope that binds nothing.
-/

namespace Lox

open Resolution

theorem Outcome.Padded.andThen {V : Context → Place → Prop} {φ : Placement} {σ σ' : State}
    {o o' : Outcome Completion} (h : o.Padded V φ σ σ' o')
    {next next' : State → Outcome Completion}
    (hnext : ∀ φ₁ σ₁ σ₁', State.Onward φ σ σ' φ₁ σ₁ σ₁' → σ₁.Padded V φ₁ σ₁' →
      (next σ₁).Padded V φ₁ σ₁ σ₁' (next' σ₁')) :
    (o.andThen next).Padded V φ σ σ' (o'.andThen next') := by
  apply h.bind
  intro c φ₁ σ₁ σ₁' honward hσ₁
  cases c with
  | normal => exact hnext φ₁ σ₁ σ₁' honward hσ₁
  | returned v => exact hσ₁.ok _

/-- Both open a scope. -/
theorem State.Padded.within {V : Context → Place → Prop} {φ : Placement} {σ σ' : State}
    (h : σ.Padded V φ σ') {run run' : State → Outcome Completion}
    (hrun : (σ.enter σ.env []).Padded V (placing φ σ σ') (σ'.enter σ'.env []) →
      (run (σ.enter σ.env [])).Padded V (placing φ σ σ') (σ.enter σ.env []) (σ'.enter σ'.env [])
        (run' (σ'.enter σ'.env []))) :
    (σ.within run).Padded V φ σ σ' (σ'.within run') := by
  have hcreated := Scopes.onward_push φ σ.scopes σ'.scopes (some σ.env) (some σ'.env) []
  apply (hrun (h.enter σ.env σ'.env [])).leaving
  intro φ₁ σ₁ σ₁' honward hσ₁
  exact ⟨⟨hcreated.trans honward.scopes, rfl, rfl⟩, hσ₁.withEnv σ.env σ'.env⟩

/-- The second one opens a spare scope. -/
theorem State.Padded.withinSpare {V : Context → Place → Prop} {φ : Placement} {σ σ' : State}
    (h : σ.Padded V φ σ') {o : Outcome Completion} {run' : State → Outcome Completion}
    (hrun : σ.Padded V φ (σ'.enter σ'.env []) →
      o.Padded V φ σ (σ'.enter σ'.env []) (run' (σ'.enter σ'.env []))) :
    o.Padded V φ σ σ' (σ'.within run') := by
  have hcreated := Scopes.onward_pushSpare φ σ.scopes σ'.scopes (some σ'.env)
  rw [← Outcome.leaving_id o]
  apply (hrun (h.enterSpare σ'.env)).leaving
  intro φ₁ σ₁ σ₁' honward hσ₁
  exact ⟨⟨hcreated.trans honward.scopes, honward.env, rfl⟩, hσ₁.withEnv σ₁.env σ'.env⟩

namespace ForClauses

/-! ### Names in the tree -/

/-- What surrounds body and increment in the tree: with an increment also the block of the two. -/
def inTurn (ctx : Context) (c : ForClauses Unit) : Context :=
  match c.increment with
  | some _ => (c.inner ctx).enter []
  | none => c.inner ctx

/-- The clauses with their names bound as in the tree. -/
def resolveTree (ctx : Context) (c : ForClauses Unit) : ForClauses Site where
  init := c.init.map (Stmt.resolve (ctx.enter []))
  condition := c.condition.map (Expr.resolve (c.inner ctx))
  increment := c.increment.map (Expr.resolve (c.inTurn ctx))
  body := c.body.resolve (c.inTurn ctx)

theorem resolve_turn (ctx : Context) {c : ForClauses Unit} (hbody : Stays c.body) :
    c.turn.resolve (c.inner ctx) = (c.resolveTree ctx).turn := by
  unfold turn resolveTree inTurn
  cases c.increment with
  | some e =>
      simp only [Option.map_some, Stmt.resolve, Stmt.resolveAll]
      rw [hbody]
  | none => rfl

theorem resolve_loop (ctx : Context) {c : ForClauses Unit} (hbody : Stays c.body) :
    c.loop.resolve (c.inner ctx) = (c.resolveTree ctx).loop := by
  rw [loop, Stmt.resolve, resolve_turn ctx hbody, loop, resolveTree]
  cases c.condition <;> rfl

theorem resolve_tree (ctx : Context) {c : ForClauses Unit} (hbody : Stays c.body) :
    c.tree.resolve ctx = (c.resolveTree ctx).tree := by
  have hloop := resolve_loop ctx hbody
  unfold tree
  unfold inner at hloop
  cases hinit : c.init with
  | some s =>
      simp only [hinit] at hloop
      simp only [resolveTree, hinit, Option.map_some, Stmt.resolve, Stmt.resolveAll, hloop]
  | none =>
      simp only [hinit] at hloop
      simp only [resolveTree, hinit, Option.map_none, hloop]

/-! ### Places in the tree -/

/-- The walk visits the clauses where they stand in the tree. -/
structure Reached (V : Context → Place → Prop) (ctx : Context) (c : ForClauses Unit) : Prop where
  init : ∀ s, c.init = some s → V (ctx.enter []) (.stmt s)
  condition : ∀ e, c.condition = some e → V (c.inner ctx) (.expr e)
  increment : ∀ e, c.increment = some e → V (c.inTurn ctx) (.expr e)
  body : V (c.inTurn ctx) (.stmt c.body)

section

variable {V : Context → Place → Prop} {ctx : Context} {c : ForClauses Unit}

theorem reached_loop (hwalked : Walked V) (hvisit : V ctx (.stmt c.tree)) :
    (∀ s, c.init = some s → V (ctx.enter []) (.stmt s)) ∧ V (c.inner ctx) (.stmt c.loop) := by
  rw [tree] at hvisit
  rw [inner]
  cases hinit : c.init with
  | none =>
      rw [hinit] at hvisit
      exact ⟨nofun, hvisit⟩
  | some s =>
      rw [hinit] at hvisit
      have hpair : V (ctx.enter []) (.stmts [s, c.loop]) :=
        hwalked.next hvisit (by simp [Place.next, Place.parts])
      have hs : V (ctx.enter []) (.stmt s) := hwalked.next hpair (by simp [Place.next])
      have hrest : V ((ctx.enter []).after s) (.stmts [c.loop]) :=
        hwalked.next hpair (by simp [Place.next])
      refine ⟨fun other hother => ?_, hwalked.next hrest (by simp [Place.next])⟩
      cases hother
      exact hs

theorem reached_turn (hwalked : Walked V) (hstays : Stays c.body)
    (hvisit : V (c.inner ctx) (.stmt c.turn)) :
    V (c.inTurn ctx) (.stmt c.body) ∧
      ∀ e, c.increment = some e → V (c.inTurn ctx) (.expr e) := by
  rw [turn] at hvisit
  rw [inTurn]
  cases hincrement : c.increment with
  | none =>
      rw [hincrement] at hvisit
      exact ⟨hvisit, nofun⟩
  | some e =>
      rw [hincrement] at hvisit
      have hpair : V ((c.inner ctx).enter []) (.stmts [c.body, .expr e]) :=
        hwalked.next hvisit (by simp [Place.next, Place.parts])
      have hbody : V ((c.inner ctx).enter []) (.stmt c.body) :=
        hwalked.next hpair (by simp [Place.next])
      have hrest : V ((c.inner ctx).enter []) (.stmts [.expr e]) :=
        hwalked.next hpair (by simp [Place.next, hstays _])
      have hlast : V ((c.inner ctx).enter []) (.stmt (.expr e)) :=
        hwalked.next hrest (by simp [Place.next])
      refine ⟨hbody, fun other hother => ?_⟩
      cases hother
      exact hwalked.next hlast (by simp [Place.next, Place.parts])

theorem reached (hwalked : Walked V) (hstays : Stays c.body) (hvisit : V ctx (.stmt c.tree)) :
    c.Reached V ctx := by
  obtain ⟨hinit, hloop⟩ := reached_loop hwalked hvisit
  have hturn : V (c.inner ctx) (.stmt c.turn) :=
    hwalked.next hloop (by simp [loop, Place.next, Place.parts])
  obtain ⟨hbody, hincrement⟩ := reached_turn hwalked hstays hturn
  refine ⟨hinit, fun e he => ?_, hincrement, hbody⟩
  exact hwalked.next hloop (by simp [loop, he, Place.next, Place.parts])

end

/-! ### Rounds side by side -/

section

variable {V : Context → Place → Prop} {φ : Placement} {σ σ' : State} {ctx ctx' : Context}
  {c : ForClauses Unit} {n : Nat}

theorem goesOn_padded (h : RunsPadded V n) (hreached : c.Reached V ctx') (hσ : σ.Padded V φ σ')
    (hinside : σ.Inside φ σ' (c.inner ctx) (c.inner ctx')) :
    ((c.resolve ctx).goesOn n σ).Padded V φ σ σ' ((c.resolveTree ctx').goesOn n σ') := by
  unfold goesOn resolve resolveTree
  cases hcondition : c.condition with
  | none => exact hσ.ok true
  | some e =>
      refine (h.eval hσ hinside (hreached.condition e hcondition)).bind ?_
      intro v φ₁ σ₁ σ₁' _ hσ₁
      exact hσ₁.ok _

theorem advance_padded (h : RunsPadded V n) (hreached : c.Reached V ctx') (hσ : σ.Padded V φ σ')
    (hinside : σ.Inside φ σ' (c.inner ctx) (c.inTurn ctx')) :
    ((c.resolve ctx).advance n σ).Padded V φ σ σ' ((c.resolveTree ctx').advance n σ') := by
  unfold advance resolve resolveTree
  cases hincrement : c.increment with
  | none => exact hσ.ok _
  | some e =>
      refine (h.eval hσ hinside (hreached.increment e hincrement)).bind ?_
      intro _ φ₁ σ₁ σ₁' _ hσ₁
      exact hσ₁.ok _

theorem round_padded (h : RunsPadded V n) (hstays : Stays c.body) (hreached : c.Reached V ctx')
    (hσ : σ.Padded V φ σ') (hinside : σ.Inside φ σ' (c.inner ctx) (c.inTurn ctx')) :
    ((c.resolve ctx).round n σ).Padded V φ σ σ' ((c.resolveTree ctx').round n σ') := by
  apply (h.exec hσ hinside (.inr hstays) hreached.body).andThen
  intro φ₁ σ₁ σ₁' honward hσ₁
  exact advance_padded h hreached hσ₁ (honward.inside hinside)

/-- The scope that a round of the tree opens is spare. -/
theorem roundWithin_padded (h : RunsPadded V n) (hstays : Stays c.body)
    (hreached : c.Reached V ctx') (hσ : σ.Padded V φ σ')
    (hinside : σ.Inside φ σ' (c.inner ctx) (c.inner ctx')) :
    ((c.resolve ctx).round n σ).Padded V φ σ σ' ((c.resolveTree ctx').roundWithin n σ') := by
  cases hincrement : c.increment with
  | none =>
      have hsame : c.inTurn ctx' = c.inner ctx' := by rw [inTurn, hincrement]
      have hround : (c.resolveTree ctx').roundWithin n σ' = (c.resolveTree ctx').round n σ' := by
        simp only [roundWithin, resolveTree, hincrement, Option.map_none]
      rw [hround]
      exact round_padded h hstays hreached hσ (by rwa [hsame])
  | some e =>
      have hopened : c.inTurn ctx' = (c.inner ctx').enter [] := by rw [inTurn, hincrement]
      have hround : (c.resolveTree ctx').roundWithin n σ' =
          σ'.within ((c.resolveTree ctx').round n) := by
        simp only [roundWithin, resolveTree, hincrement, Option.map_some]
      rw [hround]
      apply hσ.withinSpare
      intro hentered
      apply round_padded h hstays hreached hentered
      rw [hopened]
      exact Alongside.pushSpare hinside hσ.scopes

/-- What one round keeps, any number of rounds keeps. -/
theorem rounds_padded (hwalked : Walked V) (n : Nat) (hstays : Stays c.body)
    (hreached : c.Reached V ctx') (hσ : σ.Padded V φ σ')
    (hinside : σ.Inside φ σ' (c.inner ctx) (c.inner ctx')) :
    (rounds (c.resolve ctx).goesOn (c.resolve ctx).round n σ).Padded V φ σ σ'
      (rounds (c.resolveTree ctx').goesOn (c.resolveTree ctx').roundWithin n σ') := by
  induction n generalizing φ σ σ' with
  | zero => exact .outOfFuel
  | succ n ih =>
      rw [rounds, rounds]
      apply (goesOn_padded (runsPadded hwalked n) hreached hσ hinside).bind
      intro more φ₁ σ₁ σ₁' honward hσ₁
      have hinside₁ := honward.inside hinside
      cases more with
      | false => exact hσ₁.ok _
      | true =>
          apply (roundWithin_padded (runsPadded hwalked n) hstays hreached hσ₁ hinside₁).andThen
          intro φ₂ σ₂ σ₂' honward' hσ₂
          exact ih hσ₂ (honward'.inside hinside₁)

theorem exec_padded (hwalked : Walked V) (n : Nat) (hstays : Stays c.body)
    (hreached : c.Reached V ctx') (hσ : σ.Padded V φ σ') (hinside : σ.Inside φ σ' ctx ctx') :
    ((c.resolve ctx).exec n σ).Padded V φ σ σ' ((c.resolveTree ctx').execWithin n σ') := by
  cases hinit : c.init with
  | none =>
      have hinner (ctx : Context) : c.inner ctx = ctx := by rw [inner, hinit]
      have hexec : (c.resolve ctx).exec n σ =
          rounds (c.resolve ctx).goesOn (c.resolve ctx).round n σ := by
        simp only [exec, behind, resolve, hinit, Option.map_none]
      have hexec' : (c.resolveTree ctx').execWithin n σ' =
          rounds (c.resolveTree ctx').goesOn (c.resolveTree ctx').roundWithin n σ' := by
        simp only [execWithin, behind, resolveTree, hinit, Option.map_none]
      rw [hexec, hexec']
      apply rounds_padded hwalked n hstays hreached hσ
      rwa [hinner, hinner]
  | some s =>
      have hinner (ctx : Context) : c.inner ctx = (ctx.enter []).after s := by rw [inner, hinit]
      have hexec : (c.resolve ctx).exec n σ =
          σ.within fun σ => ((s.resolve (ctx.enter [])).exec n σ).andThen
            (rounds (c.resolve ctx).goesOn (c.resolve ctx).round n) := by
        simp only [exec, behind, resolve, hinit, Option.map_some]
      have hexec' : (c.resolveTree ctx').execWithin n σ' =
          σ'.within fun σ => ((s.resolve (ctx'.enter [])).exec n σ).andThen
            (rounds (c.resolveTree ctx').goesOn (c.resolveTree ctx').roundWithin n) := by
        simp only [execWithin, behind, resolveTree, hinit, Option.map_some]
      have hs := hreached.init s hinit
      rw [hexec, hexec']
      apply hσ.within
      intro hentered
      have hinside₁ : (σ.enter σ.env []).Inside (State.Padded.placing φ σ σ')
          (σ'.enter σ'.env []) (ctx.enter []) (ctx'.enter []) := Alongside.push hinside [] []
      have hstands : (σ'.enter σ'.env []).env =
          State.Padded.placing φ σ σ' (σ.enter σ.env []).env :=
        (Function.update_self σ.scopes.next σ'.scopes.next φ).symm
      apply ((runsPadded hwalked n).exec hentered hinside₁ (.inl hstands) hs).andThen
      intro φ₁ σ₁ σ₁' honward hσ₁
      apply rounds_padded hwalked n hstays hreached hσ₁
      rw [hinner, hinner]
      exact (honward.inside hinside₁).after hσ₁.scopes.nonempty
        (hwalked.checked hs).wellFormed.fine
        (honward.stands (hinside₁.scopes.inside hentered.scopes.nonempty) hstands)

end

end ForClauses

end Lox
