import Lox.Proofs.Eval.Leaves

/-!
# What a task gives back

However a task ends, the scope that was current and the number of active calls are those from before
it: a scope is left and a call is counted back also where an error ends them. Nothing is assumed of
the state.
-/

namespace Lox

open Eval

variable {α : Type}

/-- The same current scope and as many active calls. -/
structure State.SameFrame (before after : State) : Prop where
  env : after.env = before.env
  depth : after.depth = before.depth

theorem State.SameFrame.refl (σ : State) : σ.SameFrame σ :=
  ⟨rfl, rfl⟩

theorem State.SameFrame.trans {a b c : State} (h : a.SameFrame b) (h' : b.SameFrame c) :
    a.SameFrame c :=
  ⟨h'.env.trans h.env, h'.depth.trans h.depth⟩

/-- The computation has ended in such a state. -/
def Outcome.EndsIn (o : Outcome α) (P : State → Prop) : Prop :=
  ∃ σ, o.state? = some σ ∧ P σ

section EndsIn

variable {P : State → Prop} {σ : State}

theorem Outcome.endsIn_ok {a : α} (h : P σ) : (Outcome.ok a σ).EndsIn P :=
  ⟨σ, rfl, h⟩

theorem Outcome.endsIn_error {e : RuntimeError} (h : P σ) : (.error e σ : Outcome α).EndsIn P :=
  ⟨σ, rfl, h⟩

theorem Outcome.endsIn_broken (h : P σ) : (.broken σ : Outcome α).EndsIn P :=
  ⟨σ, rfl, h⟩

theorem Outcome.EndsIn.leaves {o : Outcome α} (h : o.EndsIn P) : o.Leaves P := by
  obtain ⟨σ, hσ, hP⟩ := h
  intro σ' hσ'
  obtain rfl : σ = σ' := Option.some.inj (hσ.symm.trans hσ')
  exact hP

theorem Outcome.endsIn_of_leaves {o : Outcome α} (hended : o.state?.isSome) (h : o.Leaves P) :
    o.EndsIn P := by
  obtain ⟨σ, hσ⟩ := Option.isSome_iff_exists.mp hended
  exact ⟨σ, hσ, h σ hσ⟩

theorem Outcome.EndsIn.ne_outOfFuel {o : Outcome α} (h : o.EndsIn P) : o ≠ .outOfFuel := by
  rintro rfl
  obtain ⟨σ, hσ, -⟩ := h
  cases hσ

end EndsIn

/-! ### Steps that evaluate nothing further -/

section Leaf

variable {σ : State}

theorem endsIn_same {o : Outcome α} (hended : o.state?.isSome) (h : o.Leaves (· = σ)) :
    o.EndsIn σ.SameFrame := by
  refine Outcome.endsIn_of_leaves hended (h.mono fun σ' hσ' => ?_)
  subst hσ'
  exact .refl σ'

theorem endsIn_fail (token : Token) (cause : RuntimeError.Cause) :
    (fail token cause σ : Outcome α).EndsIn σ.SameFrame :=
  Outcome.endsIn_error (.refl σ)

theorem Operates.endsIn {operator : Token} {o : State → Outcome Value} (h : Operates operator o) :
    (o σ).EndsIn σ.SameFrame := by
  refine endsIn_same ?_ h.leaves
  obtain ⟨l, hok⟩ | ⟨cause, hfail⟩ := h
  · rw [hok]
    rfl
  · rw [hfail]
    rfl

theorem ended_read (name : Token) (site : Site) : (read name site σ).state?.isSome := by
  unfold Eval.read
  split <;> split <;> rfl

theorem endsIn_read (name : Token) (site : Site) : (read name site σ).EndsIn σ.SameFrame :=
  endsIn_same (ended_read name site) (leaves_read name site)

theorem endsIn_result (f : Function) (c : Completion) : (result f c σ).EndsIn σ.SameFrame := by
  refine endsIn_same ?_ (leaves_result f c)
  simp only [result]
  split
  · split <;> rfl
  · cases c <;> rfl

theorem endsIn_assign (name : Token) (site : Site) (v : Value) :
    (assign name site v σ).EndsIn σ.SameFrame := by
  refine Outcome.endsIn_of_leaves ?_ ((leaves_assign name site v).mono fun σ' hσ' => ?_)
  · unfold assign assignGlobal
    split <;> split <;> rfl
  · rcases hσ' with rfl | ⟨id, rfl⟩ <;> exact ⟨rfl, rfl⟩

theorem endsIn_get (v : Value) (name : Token) : (Eval.get v name σ).EndsIn σ.SameFrame := by
  refine Outcome.endsIn_of_leaves ?_ ((leaves_get v name).mono fun σ' hσ' => ?_)
  · unfold Eval.get
    split
    · unfold property
      split
      · rfl
      · split
        · rfl
        · split <;> rfl
    · rfl
  · rcases hσ' with rfl | ⟨id, o, f, -, -, -, rfl⟩ <;> exact ⟨rfl, rfl⟩

theorem endsIn_super (site : Site) (method : Token) :
    (super site method σ).EndsIn σ.SameFrame := by
  refine Outcome.endsIn_of_leaves ?_ ((leaves_super site method).mono fun σ' hσ' => ?_)
  · simp only [super]
    split
    · split <;> rfl
    · rfl
  · rcases hσ' with rfl | ⟨base, receiver, f, -, -, -, rfl⟩ <;> exact ⟨rfl, rfl⟩

theorem sameFrame_tick (σ : State) : σ.SameFrame σ.tick.2 := by
  unfold State.tick
  split <;> exact ⟨rfl, rfl⟩

theorem endsIn_readClock : (readClock σ).EndsIn σ.SameFrame :=
  Outcome.endsIn_ok (sameFrame_tick σ)

theorem sameFrame_withClass (name : Token) (superclass : Option ClassId)
    (methods : List (FunctionDecl Site)) : σ.SameFrame (withClass name superclass methods σ) := by
  cases superclass <;> exact ⟨rfl, rfl⟩

theorem ended_finishClass (name : Token) (superclass : Option ClassId)
    (methods : List (FunctionDecl Site)) :
    (finishClass name superclass methods σ).state?.isSome := by
  simp only [finishClass]
  split <;> rfl

theorem ended_classWork (name : Token) (superclass : Option (Token × Site))
    (methods : List (FunctionDecl Site)) :
    (Task.classWork name superclass methods σ).state?.isSome := by
  cases superclass with
  | none => exact ended_finishClass name none methods
  | some use =>
      obtain ⟨base, site⟩ := use
      have hread := ended_read (σ := σ) base site
      simp only [Task.classWork]
      cases hend : read base site σ with
      | ok v σ₁ =>
          cases v with
          | «class» id => exact ended_finishClass name (some id) methods
          | _ => rfl
      | error e σ₁ => rfl
      | broken σ₁ => rfl
      | outOfFuel =>
          rw [hend] at hread
          cases hread

theorem endsIn_classWork (name : Token) (superclass : Option (Token × Site))
    (methods : List (FunctionDecl Site)) :
    (Task.classWork name superclass methods σ).EndsIn σ.SameFrame := by
  refine Outcome.endsIn_of_leaves (ended_classWork name superclass methods)
    ((leaves_classWork name superclass methods).mono fun σ' hσ' => ?_)
  rcases hσ' with rfl | ⟨base, -, hσ'⟩
  · exact .refl _
  · have hclass := sameFrame_withClass (σ := σ) name base methods
    rcases hσ' with rfl | ⟨id, v, rfl⟩
    · exact hclass
    · exact hclass.trans ⟨rfl, rfl⟩

end Leaf

/-! ### Tasks -/

/-- If the tasks of a computation give back what they took, so does the computation. -/
def Work.Restores (before : State) : Work α → Prop
  | .done o => o.EndsIn before.SameFrame
  | .enter _ σ leave next =>
      ∀ σ', σ.SameFrame σ' →
        before.SameFrame (leave σ') ∧ ∀ a, (next a (leave σ')).Restores before

theorem Work.leaves_sameFrame {go : (t : Task) → State → Outcome t.Answer}
    (hgo : ∀ t σ, (go t σ).Leaves σ.SameFrame) {w : Work α} {before : State}
    (hw : w.Restores before) : (w.run go).Leaves before.SameFrame := by
  induction w with
  | done o => exact hw.leaves
  | enter t σ leave next ih =>
      have htask := hgo t σ
      rw [Work.run_enter]
      cases hrun : go t σ with
      | ok a σ' =>
          rw [hrun] at htask
          have hnext := (hw σ' (Outcome.leaves_ok.mp htask)).2 a
          exact ih a (leave σ') hnext
      | error e σ' =>
          rw [hrun] at htask
          exact Outcome.leaves_error.mpr (hw σ' (Outcome.leaves_error.mp htask)).1
      | broken σ' =>
          rw [hrun] at htask
          exact Outcome.leaves_broken.mpr (hw σ' (Outcome.leaves_broken.mp htask)).1
      | outOfFuel => exact Outcome.leaves_outOfFuel

section Rules

variable {before σ : State}

theorem restores_done {o : Outcome α} (hσ : before.SameFrame σ) (h : o.EndsIn σ.SameFrame) :
    (Work.done o).Restores before := by
  obtain ⟨σ', hσ', hsame⟩ := h
  exact ⟨σ', hσ', hσ.trans hsame⟩

theorem restores_ok {a : α} (hσ : before.SameFrame σ) :
    (Work.done (.ok a σ)).Restores before :=
  Outcome.endsIn_ok hσ

theorem restores_ask {t : Task} {next : t.Answer → State → Work α} (hσ : before.SameFrame σ)
    (hnext : ∀ a σ', before.SameFrame σ' → (next a σ').Restores before) :
    (Work.ask t σ next).Restores before :=
  fun σ' hσ' => ⟨hσ.trans hσ', fun a => hnext a σ' (hσ.trans hσ')⟩

theorem restores_answer {t : Task} (hσ : before.SameFrame σ) :
    (Work.answer t σ).Restores before :=
  restores_ask hσ fun _ _ hσ' => restores_ok hσ'

end Rules

theorem restores_evalWork (e : Expr Site) (σ : State) : (Task.evalWork e σ).Restores σ := by
  have hrefl := State.SameFrame.refl σ
  cases e with
  | assign name site value =>
      refine restores_ask hrefl fun v σ₁ hσ₁ => ?_
      exact restores_done hσ₁ (endsIn_assign name site v)
  | binary left operator right =>
      refine restores_ask hrefl fun a σ₁ hσ₁ => restores_ask hσ₁ fun b σ₂ hσ₂ => ?_
      exact restores_done hσ₂ (operates_binary operator a b).endsIn
  | call callee paren arguments =>
      refine restores_ask hrefl fun f σ₁ hσ₁ => restores_ask hσ₁ fun vs σ₂ hσ₂ => ?_
      exact restores_answer hσ₂
  | get object name =>
      refine restores_ask hrefl fun v σ₁ hσ₁ => ?_
      exact restores_done hσ₁ (endsIn_get v name)
  | group inner => exact restores_answer hrefl
  | literal value => exact restores_ok hrefl
  | logical left operator right =>
      refine restores_ask hrefl fun a σ₁ hσ₁ => ?_
      split
      · exact restores_ok hσ₁
      · exact restores_answer hσ₁
  | set object name value =>
      refine restores_ask hrefl fun o σ₁ hσ₁ => ?_
      cases o with
      | object id =>
          refine restores_ask hσ₁ fun v σ₂ hσ₂ => ?_
          exact restores_ok (hσ₂.trans ⟨rfl, rfl⟩)
      | _ => exact restores_done hσ₁ (endsIn_fail _ _)
  | «super» keyword site method => exact endsIn_super site method
  | this keyword site => exact endsIn_read keyword site
  | unary operator operand =>
      refine restores_ask hrefl fun v σ₁ hσ₁ => ?_
      exact restores_done hσ₁ (operates_unary operator v).endsIn
  | read name site => exact endsIn_read name site

theorem restores_execWork (s : Stmt Site) (σ : State) : (Task.execWork s σ).Restores σ := by
  have hrefl := State.SameFrame.refl σ
  cases s with
  | block body => exact restores_answer hrefl
  | «class» name superclass methods =>
      have hdefine : σ.SameFrame (σ.define σ.env name.lexeme .nil) := ⟨rfl, rfl⟩
      exact restores_done hdefine (endsIn_classWork name superclass methods)
  | expr e => exact restores_ask hrefl fun _ _ hσ₁ => restores_ok hσ₁
  | function decl => exact restores_ok ⟨rfl, rfl⟩
  | ifThen condition thenBranch =>
      refine restores_ask hrefl fun v σ₁ hσ₁ => ?_
      split
      · exact restores_answer hσ₁
      · exact restores_ok hσ₁
  | ifElse condition thenBranch elseBranch =>
      refine restores_ask hrefl fun v σ₁ hσ₁ => ?_
      split
      · exact restores_answer hσ₁
      · exact restores_answer hσ₁
  | print e => exact restores_ask hrefl fun _ _ hσ₁ => restores_ok (hσ₁.trans ⟨rfl, rfl⟩)
  | «return» keyword value =>
      cases value with
      | none => exact restores_ok hrefl
      | some e => exact restores_ask hrefl fun _ _ hσ₁ => restores_ok hσ₁
  | var name init =>
      cases init with
      | none => exact restores_ok ⟨rfl, rfl⟩
      | some e => exact restores_ask hrefl fun _ _ hσ₁ => restores_ok (hσ₁.trans ⟨rfl, rfl⟩)
  | «while» condition body => exact restores_answer hrefl

theorem restores_applyWork (callee : Value) (arguments : List Value) (σ : State) :
    (Task.applyWork callee arguments σ).Restores σ := by
  have hrefl := State.SameFrame.refl σ
  cases callee with
  | function id =>
      simp only [Task.applyWork]
      split
      · exact restores_answer hrefl
      · exact Outcome.endsIn_broken hrefl
  | clock => exact endsIn_readClock
  | «class» id =>
      simp only [Task.applyWork]
      split
      · exact restores_ask ⟨rfl, rfl⟩ fun _ _ hσ₁ => restores_ok hσ₁
      · exact restores_ok ⟨rfl, rfl⟩
  | _ => exact Outcome.endsIn_broken hrefl

theorem Task.restores (t : Task) (σ : State) : (t.work σ).Restores σ := by
  have hrefl := State.SameFrame.refl σ
  cases t with
  | eval e => exact restores_evalWork e σ
  | evalAll es =>
      cases es with
      | nil => exact restores_ok hrefl
      | cons e es =>
          refine restores_ask hrefl fun v σ₁ hσ₁ => restores_ask hσ₁ fun vs σ₂ hσ₂ => ?_
          exact restores_ok hσ₂
  | call callee paren arguments =>
      simp only [Task.work]
      split
      · exact endsIn_fail _ _
      · intro σ' hσ'
        -- One call more was active in between.
        have hleft : σ.SameFrame { σ' with depth := σ'.depth - 1 } := by
          refine ⟨hσ'.env, ?_⟩
          have hdepth : σ'.depth = σ.depth + 1 := hσ'.depth
          simp [hdepth]
        exact ⟨hleft, fun a => restores_ok hleft⟩
  | apply callee arguments => exact restores_applyWork callee arguments σ
  | invoke f arguments =>
      refine restores_ask hrefl fun c σ₁ hσ₁ => ?_
      exact restores_done hσ₁ (endsIn_result f c)
  | scope body parent bindings =>
      intro σ' hσ'
      have hleft : σ.SameFrame { σ' with env := σ.env } := ⟨rfl, hσ'.depth⟩
      exact ⟨hleft, fun a => restores_ok hleft⟩
  | execAll ss =>
      cases ss with
      | nil => exact restores_ok hrefl
      | cons s ss =>
          refine restores_ask hrefl fun c σ₁ hσ₁ => ?_
          cases c with
          | normal => exact restores_answer hσ₁
          | returned v => exact restores_ok hσ₁
  | exec s => exact restores_execWork s σ
  | loop condition body =>
      refine restores_ask hrefl fun v σ₁ hσ₁ => ?_
      split
      · refine restores_ask hσ₁ fun c σ₂ hσ₂ => ?_
        cases c with
        | normal => exact restores_answer hσ₂
        | returned v => exact restores_ok hσ₂
      · exact restores_ok hσ₁

/-- However a task ends, scope and calls are those from before. -/
theorem Task.leaves_sameFrame (n : Nat) (t : Task) (σ : State) :
    (t.run n σ).Leaves σ.SameFrame := by
  induction n generalizing t σ with
  | zero =>
      rw [Task.run_zero]
      exact Outcome.leaves_outOfFuel
  | succ n ih =>
      rw [Task.run_succ]
      exact Work.leaves_sameFrame ih (t.restores σ)

end Lox
