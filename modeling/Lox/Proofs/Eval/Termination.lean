import Mathlib.Order.WithBot
import Mathlib.Order.WellFounded
import Mathlib.Data.Prod.Lex
import Lox.Proofs.Eval.Frame
import Lox.Proofs.Eval.Fuel

/-!
# Only loops go on forever

A call is counted before the called value is applied, and refused when too many are active. Between
two calls, what a task sets off has less syntax than itself, unless the task is a loop. So tasks
without loops are well founded: in the calls that may still be nested, then in the syntax that is
left.
-/

namespace Lox

open Eval

variable {α : Type}

/-- The task goes through a loop. -/
def Task.Loops : Task → Prop
  | .loop _ _ => True
  | .exec (.while _ _) => True
  | _ => False

/-- How much syntax a task may go through before the next call. Of a value that is applied, nothing
is known. -/
noncomputable def Task.weight : Task → WithTop Nat
  | .eval e => .some (2 * sizeOf e)
  | .evalAll es => .some (2 * sizeOf es)
  | .call _ _ _ => .some 0
  | .apply _ _ => ⊤
  | .invoke f _ => .some (2 * sizeOf f.decl.body + 2)
  | .scope body _ _ => .some (2 * sizeOf body + 1)
  | .execAll ss => .some (2 * sizeOf ss)
  | .exec s => .some (2 * sizeOf s)
  | .loop _ _ => ⊤

/-- The first task applies a value in a call within the other one, one of so many that may be
active, or it has less syntax and lies within the same calls. -/
def Task.Lower (t' : Task) (σ' : State) (t : Task) (σ : State) : Prop :=
  (∃ callee arguments, t' = .apply callee arguments) ∧ σ.depth < σ'.depth ∧ σ'.depth ≤ maxDepth ∨
    σ'.depth = σ.depth ∧ t'.weight < t.weight

theorem Task.wellFounded_lower :
    WellFounded fun p q : Task × State => p.1.Lower p.2 q.1 q.2 := by
  have hlex : WellFounded (Prod.Lex (· < ·) (· < ·) : Nat × WithTop Nat → Nat × WithTop Nat → Prop) :=
    WellFounded.prod_lex wellFounded_lt wellFounded_lt
  refine Subrelation.wf ?_
    (InvImage.wf (fun p : Task × State => (maxDepth - p.2.depth, p.1.weight)) hlex)
  rintro ⟨t', σ'⟩ ⟨t, σ⟩ (⟨-, hdepth, hmax⟩ | ⟨hdepth, hweight⟩)
  · refine Prod.Lex.left _ _ ?_
    dsimp only at hdepth hmax ⊢
    omega
  · dsimp only at hdepth
    simp only [InvImage, hdepth]
    exact Prod.Lex.right _ hweight

theorem Task.Lower.not_loop {t' t : Task} {σ' σ : State} (h : t'.Lower σ' t σ)
    (condition : Expr Site) (body : Stmt Site) : t' ≠ .loop condition body := by
  rintro rfl
  rcases h with ⟨⟨callee, arguments, heq⟩, -⟩ | ⟨-, hweight⟩
  · cases heq
  · exact not_top_lt hweight

/-- Every task that the computation sets off is lower than the given one. -/
def Work.Descends (t : Task) (σ : State) : Work α → Prop
  | .done _ => True
  | .enter t' σ' leave next =>
      t'.Lower σ' t σ ∧
        ∀ a σ'', σ'.SameFrame σ'' → (next a (leave σ'')).Descends t σ

/-! ### What each task sets off -/

section Rules

variable {t : Task} {σ : State}

theorem descends_ask {t' : Task} {σ' : State} {next : t'.Answer → State → Work α}
    (hdepth : σ'.depth = σ.depth) (hweight : t'.weight < t.weight)
    (hnext : ∀ a σ'', σ''.depth = σ.depth → (next a σ'').Descends t σ) :
    (Work.ask t' σ' next).Descends t σ :=
  ⟨.inr ⟨hdepth, hweight⟩, fun a σ'' hσ'' => hnext a σ'' (hσ''.depth.trans hdepth)⟩

theorem descends_answer {t' : Task} {σ' : State} (hdepth : σ'.depth = σ.depth)
    (hweight : t'.weight < t.weight) : (Work.answer t' σ').Descends t σ :=
  descends_ask hdepth hweight fun _ _ _ => trivial

end Rules

theorem weight_lt {a b : Nat} (h : a < b) : (WithTop.some a : WithTop Nat) < .some b :=
  WithTop.coe_lt_coe.mpr h

theorem descends_evalWork (e : Expr Site) (σ : State) :
    (Task.evalWork e σ).Descends (.eval e) σ := by
  cases e with
  | assign name site value =>
      have hvalue : (Task.eval value).weight < (Task.eval (.assign name site value)).weight :=
        weight_lt (by simp only [Expr.assign.sizeOf_spec]; omega)
      exact descends_ask rfl hvalue fun _ _ _ => trivial
  | binary left operator right =>
      have hleft : (Task.eval left).weight < (Task.eval (.binary left operator right)).weight :=
        weight_lt (by simp only [Expr.binary.sizeOf_spec]; omega)
      have hright : (Task.eval right).weight < (Task.eval (.binary left operator right)).weight :=
        weight_lt (by simp only [Expr.binary.sizeOf_spec]; omega)
      exact descends_ask rfl hleft fun _ _ hσ₁ => descends_ask hσ₁ hright fun _ _ _ => trivial
  | call callee paren arguments =>
      have hcallee : (Task.eval callee).weight < (Task.eval (.call callee paren arguments)).weight :=
        weight_lt (by simp only [Expr.call.sizeOf_spec]; omega)
      have harguments :
          (Task.evalAll arguments).weight < (Task.eval (.call callee paren arguments)).weight :=
        weight_lt (by simp only [Expr.call.sizeOf_spec]; omega)
      refine descends_ask rfl hcallee fun f σ₁ hσ₁ => descends_ask hσ₁ harguments fun vs σ₂ hσ₂ => ?_
      exact descends_answer hσ₂ (weight_lt (by simp only [Expr.call.sizeOf_spec]; omega))
  | get object name =>
      have hobject : (Task.eval object).weight < (Task.eval (.get object name)).weight :=
        weight_lt (by simp only [Expr.get.sizeOf_spec]; omega)
      exact descends_ask rfl hobject fun _ _ _ => trivial
  | group inner =>
      exact descends_answer rfl (weight_lt (by simp only [Expr.group.sizeOf_spec]; omega))
  | literal value => trivial
  | logical left operator right =>
      have hleft : (Task.eval left).weight < (Task.eval (.logical left operator right)).weight :=
        weight_lt (by simp only [Expr.logical.sizeOf_spec]; omega)
      refine descends_ask rfl hleft fun a σ₁ hσ₁ => ?_
      split
      · trivial
      · exact descends_answer hσ₁ (weight_lt (by simp only [Expr.logical.sizeOf_spec]; omega))
  | set object name value =>
      have hobject : (Task.eval object).weight < (Task.eval (.set object name value)).weight :=
        weight_lt (by simp only [Expr.set.sizeOf_spec]; omega)
      have hvalue : (Task.eval value).weight < (Task.eval (.set object name value)).weight :=
        weight_lt (by simp only [Expr.set.sizeOf_spec]; omega)
      refine descends_ask rfl hobject fun o σ₁ hσ₁ => ?_
      cases o with
      | object id => exact descends_ask hσ₁ hvalue fun _ _ _ => trivial
      | _ => trivial
  | «super» keyword site method => trivial
  | this keyword site => trivial
  | unary operator operand =>
      have hoperand : (Task.eval operand).weight < (Task.eval (.unary operator operand)).weight :=
        weight_lt (by simp only [Expr.unary.sizeOf_spec]; omega)
      exact descends_ask rfl hoperand fun _ _ _ => trivial
  | read name site => trivial

theorem descends_execWork {s : Stmt Site} (hloop : ¬(Task.exec s).Loops) (σ : State) :
    (Task.execWork s σ).Descends (.exec s) σ := by
  cases s with
  | block body =>
      exact descends_answer rfl (weight_lt (by simp only [Stmt.block.sizeOf_spec]; omega))
  | «class» name superclass methods => trivial
  | expr e =>
      have he : (Task.eval e).weight < (Task.exec (.expr e)).weight :=
        weight_lt (by simp only [Stmt.expr.sizeOf_spec]; omega)
      exact descends_ask rfl he fun _ _ _ => trivial
  | function decl => trivial
  | ifThen condition thenBranch =>
      have hcondition :
          (Task.eval condition).weight < (Task.exec (.ifThen condition thenBranch)).weight :=
        weight_lt (by simp only [Stmt.ifThen.sizeOf_spec]; omega)
      refine descends_ask rfl hcondition fun v σ₁ hσ₁ => ?_
      split
      · exact descends_answer hσ₁ (weight_lt (by simp only [Stmt.ifThen.sizeOf_spec]; omega))
      · trivial
  | ifElse condition thenBranch elseBranch =>
      have hcondition : (Task.eval condition).weight <
          (Task.exec (.ifElse condition thenBranch elseBranch)).weight :=
        weight_lt (by simp only [Stmt.ifElse.sizeOf_spec]; omega)
      refine descends_ask rfl hcondition fun v σ₁ hσ₁ => ?_
      split
      · exact descends_answer hσ₁ (weight_lt (by simp only [Stmt.ifElse.sizeOf_spec]; omega))
      · exact descends_answer hσ₁ (weight_lt (by simp only [Stmt.ifElse.sizeOf_spec]; omega))
  | print e =>
      have he : (Task.eval e).weight < (Task.exec (.print e)).weight :=
        weight_lt (by simp only [Stmt.print.sizeOf_spec]; omega)
      exact descends_ask rfl he fun _ _ _ => trivial
  | «return» keyword value =>
      cases value with
      | none => trivial
      | some e =>
          have he : (Task.eval e).weight < (Task.exec (.return keyword (some e))).weight :=
            weight_lt (by simp only [Stmt.return.sizeOf_spec, Option.some.sizeOf_spec]; omega)
          exact descends_ask rfl he fun _ _ _ => trivial
  | var name init =>
      cases init with
      | none => trivial
      | some e =>
          have he : (Task.eval e).weight < (Task.exec (.var name (some e))).weight :=
            weight_lt (by simp only [Stmt.var.sizeOf_spec, Option.some.sizeOf_spec]; omega)
          exact descends_ask rfl he fun _ _ _ => trivial
  | «while» condition body => exact absurd trivial hloop

theorem descends_applyWork (callee : Value) (arguments : List Value) (σ : State) :
    (Task.applyWork callee arguments σ).Descends (.apply callee arguments) σ := by
  cases callee with
  | function id =>
      simp only [Task.applyWork]
      split
      · exact descends_answer rfl (WithTop.coe_lt_top _)
      · trivial
  | «class» id =>
      simp only [Task.applyWork]
      split
      · exact descends_ask rfl (WithTop.coe_lt_top _) fun _ _ _ => trivial
      · trivial
  | _ => trivial

/-- Where a call goes on, one more may be active. -/
theorem lt_maxDepth_of_refusal? {callee : Value} {given : Nat} {σ : State}
    (h : refusal? callee given σ = none) : σ.depth < maxDepth := by
  unfold refusal? at h
  split at h
  · cases h
  · split at h
    · cases h
    · split at h
      · cases h
      case isFalse hdepth => exact Nat.lt_of_not_le hdepth

theorem Task.descends {t : Task} (hloop : ¬t.Loops) (σ : State) : (t.work σ).Descends t σ := by
  cases t with
  | eval e => exact descends_evalWork e σ
  | evalAll es =>
      cases es with
      | nil => trivial
      | cons e es =>
          have he : (Task.eval e).weight < (Task.evalAll (e :: es)).weight :=
            weight_lt (by simp only [List.cons.sizeOf_spec]; omega)
          have hes : (Task.evalAll es).weight < (Task.evalAll (e :: es)).weight :=
            weight_lt (by simp only [List.cons.sizeOf_spec]; omega)
          exact descends_ask rfl he fun _ _ hσ₁ => descends_ask hσ₁ hes fun _ _ _ => trivial
  | call callee paren arguments =>
      simp only [Task.work]
      split
      · trivial
      case h_2 hgoes =>
        have hdepth : σ.depth < maxDepth := lt_maxDepth_of_refusal? hgoes
        exact ⟨.inl ⟨⟨callee, arguments, rfl⟩, Nat.lt_succ_self _, hdepth⟩, fun _ _ _ => trivial⟩
  | apply callee arguments => exact descends_applyWork callee arguments σ
  | invoke f arguments =>
      exact descends_ask rfl (weight_lt (Nat.lt_succ_self _)) fun _ _ _ => trivial
  | scope body parent bindings =>
      exact ⟨.inr ⟨rfl, weight_lt (Nat.lt_succ_self _)⟩, fun _ _ _ => trivial⟩
  | execAll ss =>
      cases ss with
      | nil => trivial
      | cons s ss =>
          have hs : (Task.exec s).weight < (Task.execAll (s :: ss)).weight :=
            weight_lt (by simp only [List.cons.sizeOf_spec]; omega)
          refine descends_ask rfl hs fun c σ₁ hσ₁ => ?_
          cases c with
          | normal =>
              exact descends_answer hσ₁ (weight_lt (by simp only [List.cons.sizeOf_spec]; omega))
          | returned v => trivial
  | exec s => exact descends_execWork hloop σ
  | loop condition body => exact absurd trivial hloop

/-! ### Runs -/

/-- The tasks that a computation sets off itself, while `go` runs them. -/
def Work.asked (go : (t : Task) → State → Outcome t.Answer) : Work α → List (Task × State)
  | .done _ => []
  | .enter t σ leave next =>
      (t, σ) ::
        match go t σ with
        | .ok a σ' => (next a (leave σ')).asked go
        | _ => []

theorem Work.lower_of_asked (n : Nat) {t : Task} {σ : State} {w : Work α}
    (hw : w.Descends t σ) : ∀ p ∈ w.asked (Task.run n), p.1.Lower p.2 t σ := by
  induction w with
  | done o => simp [Work.asked]
  | enter t' σ' leave next ih =>
      obtain ⟨hlower, hnext⟩ := hw
      have hframe := t'.leaves_sameFrame n σ'
      rw [Work.asked, List.forall_mem_cons]
      refine ⟨hlower, ?_⟩
      cases hrun : t'.run n σ' with
      | ok a σ'' =>
          rw [hrun] at hframe
          exact ih a (leave σ'') (hnext a σ'' (Outcome.leaves_ok.mp hframe))
      | error e σ'' => simp
      | broken σ'' => simp
      | outOfFuel => simp

section Halts

variable {C : Contract}

/-- The contract for tasks without loops, which give back scope and calls. -/
def Contract.loopless (C : Contract) : Contract where
  pre t σ := C.pre t σ ∧ ¬t.Loops
  ok t σ a σ' := C.ok t σ a σ' ∧ σ.SameFrame σ'
  error := C.error

theorem Work.Meets.loopless {w : Work α} {ok : α → State → Prop}
    {error : RuntimeError → State → Prop} (hmeets : w.Meets C ok error) {before : State}
    (hrestores : w.Restores before) {t : Task} {σ : State} (hdescends : w.Descends t σ)
    (hfree : ∀ condition body σ, ¬C.pre (.exec (.while condition body)) σ) :
    w.Meets C.loopless (fun a σ' => ok a σ' ∧ before.SameFrame σ') error := by
  induction w with
  | done o =>
      cases o with
      | ok a σ' => exact ⟨hmeets, Outcome.leaves_ok.mp (Outcome.EndsIn.leaves hrestores)⟩
      | error e σ' => exact hmeets
      | broken σ' => exact hmeets
      | outOfFuel => trivial
  | enter t' σ' leave next ih =>
      obtain ⟨hpre, hnext, herror⟩ := hmeets
      obtain ⟨hlower, hlater⟩ := hdescends
      have hloop : ¬t'.Loops := by
        intro hloops
        unfold Task.Loops at hloops
        split at hloops
        · exact hlower.not_loop _ _ rfl
        · exact hfree _ _ _ hpre
        · exact hloops
      refine ⟨⟨hpre, hloop⟩, fun a σ'' hgives hok => ?_, herror⟩
      exact ih a (leave σ'') (hnext a σ'' hgives hok.1) ((hrestores σ'' hok.2).2 a)
        (hlater a σ'' hok.2)

theorem Contract.Holds.loopless (hC : C.Holds)
    (hfree : ∀ condition body σ, ¬C.pre (.exec (.while condition body)) σ) : C.loopless.Holds := by
  intro t σ ⟨hpre, hloop⟩
  exact (hC t σ hpre).loopless (t.restores σ) (Task.descends hloop σ) hfree

theorem Outcome.UpTo.eq_of_ne {o o' : Outcome α} (h : o.UpTo o') (hne : o ≠ .outOfFuel) : o' = o := by
  rcases h with hout | heq
  · exact absurd hout hne
  · exact heq.symm

theorem Work.halts (hC : C.loopless.Holds) {w : Work α} {ok : α → State → Prop}
    {error : RuntimeError → State → Prop} (hmeets : w.Meets C.loopless ok error) {before : State}
    (hrestores : w.Restores before) {t : Task} {σ : State} (hdescends : w.Descends t σ)
    (hlower : ∀ t' σ', t'.Lower σ' t σ → C.loopless.pre t' σ' → ∃ n, t'.run n σ' ≠ .outOfFuel) :
    ∃ n, w.run (Task.run n) ≠ .outOfFuel := by
  induction w with
  | done o => exact ⟨0, Outcome.EndsIn.ne_outOfFuel hrestores⟩
  | enter t' σ' leave next ih =>
      obtain ⟨hpre, hnext, -⟩ := hmeets
      obtain ⟨hlow, hlater⟩ := hdescends
      obtain ⟨n, hn⟩ := hlower t' σ' hlow hpre
      have hend := hC.run n hpre
      cases hrun : t'.run n σ' with
      | ok a σ'' =>
          rw [hrun] at hend
          obtain ⟨m, hm⟩ := ih a (leave σ'') (hnext a σ'' ⟨n, hrun⟩ hend)
            ((hrestores σ'' hend.2).2 a) (hlater a σ'' hend.2)
          -- Both the task and what follows have ended within the larger bound.
          have htask := (Task.run_upTo (Nat.le_max_left n m) t' σ').eq_of_ne hn
          have hrest := (Work.run_upTo (Task.run_upTo (Nat.le_max_right n m))
            (next a (leave σ''))).eq_of_ne hm
          refine ⟨max n m, ?_⟩
          rw [Work.run_enter, htask, hrun]
          exact fun hout => hm (hrest.symm.trans hout)
      | error e σ'' =>
          refine ⟨n, ?_⟩
          rw [Work.run_enter, hrun]
          exact nofun
      | broken σ'' =>
          refine ⟨n, ?_⟩
          rw [Work.run_enter, hrun]
          exact nofun
      | outOfFuel => exact absurd hrun hn

/-- Without loops every task ends. -/
theorem Contract.Holds.halts (hC : C.loopless.Holds) {t : Task} {σ : State}
    (hpre : C.loopless.pre t σ) : ∃ n, t.run n σ ≠ .outOfFuel := by
  suffices h : ∀ p : Task × State, C.loopless.pre p.1 p.2 → ∃ n, p.1.run n p.2 ≠ .outOfFuel from
    h (t, σ) hpre
  intro p
  induction p using Task.wellFounded_lower.induction with
  | h p ih =>
      intro hpre
      obtain ⟨n, hn⟩ := Work.halts hC (hC p.1 p.2 hpre) (p.1.restores p.2)
        (Task.descends hpre.2 p.2) fun t' σ' hlow => ih (t', σ') hlow
      exact ⟨n + 1, by rwa [Task.run_succ]⟩

end Halts

end Lox
