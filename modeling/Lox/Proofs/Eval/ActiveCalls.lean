import Lox.Proofs.Eval.Termination
import Lox.Session

/-!
# Active calls

The moments of a run are the states that it comes to, each with the calls that have been let through
there and have not ended. The depth of a state counts these calls, so it never goes beyond the bound,
and behind every program, however it ends, no call is active. Nothing is assumed of the heap.
-/

namespace Lox

open Eval

variable {α : Type}

/-- A call with the state in which it was made. -/
structure ActiveCall where
  callee : Value
  arguments : List Value
  state : State

/-- The call could be made: callee and arguments fit, and there was room for one call more. -/
def ActiveCall.Admitted (c : ActiveCall) : Prop :=
  arity? c.callee c.state = some c.arguments.length ∧ c.state.depth < maxDepth

/-- A state of a run and the calls that are active in it, innermost first. -/
structure Moment where
  active : List ActiveCall
  state : State

/-- The calls that the tasks of a task lie in, beyond those of the task. -/
def Task.opened : Task → State → List ActiveCall
  | .call callee _ arguments, σ => [⟨callee, arguments, σ⟩]
  | _, _ => []

/-- The moments of a computation while `go` runs its tasks, given those of each task. -/
def Work.moments (go : (t : Task) → State → Outcome t.Answer)
    (within : Task → State → List Moment) (active : List ActiveCall) : Work α → List Moment
  | .done o => o.state?.toList.map (⟨active, ·⟩)
  | .enter t σ leave next =>
      within t σ ++
        match go t σ with
        | .ok a σ' => ⟨active, leave σ'⟩ :: (next a (leave σ')).moments go within active
        | .error _ σ' => [⟨active, leave σ'⟩]
        | .broken σ' => [⟨active, leave σ'⟩]
        | .outOfFuel => []

/-- The moments of the run of a task that is set off within the active calls. The run need not end:
more fuel shows more of it. -/
def Task.moments : Nat → List ActiveCall → Task → State → List Moment
  | 0, active, _, σ => [⟨active, σ⟩]
  | n + 1, active, t, σ =>
      ⟨active, σ⟩ ::
        (t.work σ).moments (Task.run n) (Task.moments n (t.opened σ ++ active)) active

/-! ### Moments are the states of the history -/

theorem Work.map_state_moments {go : (t : Task) → State → Outcome t.Answer}
    {within : Task → State → List Moment} {states : Task → State → List State}
    (hwithin : ∀ t σ, (within t σ).map Moment.state = states t σ) (active : List ActiveCall)
    (w : Work α) : (w.moments go within active).map Moment.state = w.history go states := by
  induction w with
  | done o =>
      rw [Work.moments, Work.history, List.map_map]
      exact List.map_id _
  | enter t σ leave next ih =>
      rw [Work.moments, Work.history, List.map_append, hwithin]
      cases go t σ with
      | ok a σ' => simp only [List.map_cons, ih]
      | error e σ' => rfl
      | broken σ' => rfl
      | outOfFuel => rfl

theorem Task.map_state_moments (n : Nat) (active : List ActiveCall) (t : Task) (σ : State) :
    (t.moments n active σ).map Moment.state = t.history n σ := by
  induction n generalizing active t σ with
  | zero => rfl
  | succ n ih =>
      rw [Task.moments, Task.history, List.map_cons]
      exact congrArg (σ :: ·) (Work.map_state_moments (fun t σ => ih _ t σ) active _)

/-! ### The depth in which tasks are set off -/

/-- Every task of the computation is set off in that depth, if those before it end in it. -/
def Work.Level (depth : Nat) : Work α → Prop
  | .done _ => True
  | .enter _ σ leave next =>
      σ.depth = depth ∧ ∀ a σ', σ'.depth = depth → (next a (leave σ')).Level depth

section Rules

variable {depth : Nat} {σ : State}

theorem level_ask {t : Task} {next : t.Answer → State → Work α} (hσ : σ.depth = depth)
    (hnext : ∀ a σ', σ'.depth = depth → (next a σ').Level depth) :
    (Work.ask t σ next).Level depth :=
  ⟨hσ, hnext⟩

theorem level_answer {t : Task} (hσ : σ.depth = depth) : (Work.answer t σ).Level depth :=
  level_ask hσ fun _ _ _ => trivial

/-- One task is set off, and nothing behind it. -/
theorem level_ask_done {t : Task} {o : t.Answer → State → Outcome α} (hσ : σ.depth = depth) :
    (Work.ask t σ fun a σ => .done (o a σ)).Level depth :=
  level_ask hσ fun _ _ _ => trivial

end Rules

theorem level_evalWork (e : Expr Site) (σ : State) : (Task.evalWork e σ).Level σ.depth := by
  cases e with
  | assign name site value => exact level_ask_done rfl
  | binary left operator right => exact level_ask rfl fun a σ₁ hσ₁ => level_ask_done hσ₁
  | call callee paren arguments =>
      exact level_ask rfl fun f σ₁ hσ₁ => level_ask hσ₁ fun vs σ₂ hσ₂ => level_answer hσ₂
  | get object name => exact level_ask_done rfl
  | group inner => exact level_answer rfl
  | literal value => trivial
  | logical left operator right =>
      refine level_ask rfl fun a σ₁ hσ₁ => ?_
      split
      · trivial
      · exact level_answer hσ₁
  | set object name value =>
      refine level_ask rfl fun o σ₁ hσ₁ => ?_
      cases o with
      | object id => exact level_ask_done hσ₁
      | _ => trivial
  | «super» keyword site method => trivial
  | this keyword site => trivial
  | unary operator operand => exact level_ask_done rfl
  | read name site => trivial

theorem level_execWork (s : Stmt Site) (σ : State) : (Task.execWork s σ).Level σ.depth := by
  cases s with
  | block body => exact level_answer rfl
  | «class» name superclass methods => trivial
  | expr e => exact level_ask_done rfl
  | function decl => trivial
  | ifThen condition thenBranch =>
      refine level_ask rfl fun v σ₁ hσ₁ => ?_
      split
      · exact level_answer hσ₁
      · trivial
  | ifElse condition thenBranch elseBranch =>
      refine level_ask rfl fun v σ₁ hσ₁ => ?_
      split
      · exact level_answer hσ₁
      · exact level_answer hσ₁
  | print e => exact level_ask_done rfl
  | «return» keyword value =>
      cases value with
      | none => trivial
      | some e => exact level_ask_done rfl
  | var name init =>
      cases init with
      | none => trivial
      | some e => exact level_ask_done rfl
  | «while» condition body => exact level_answer rfl

theorem level_applyWork (callee : Value) (arguments : List Value) (σ : State) :
    (Task.applyWork callee arguments σ).Level σ.depth := by
  cases callee with
  | function id =>
      simp only [Task.applyWork]
      split
      · exact level_answer rfl
      · trivial
  | «class» id =>
      simp only [Task.applyWork]
      split
      · exact level_ask_done rfl
      · trivial
  | _ => trivial

/-- A call sets off its task one call deeper, any other task in its own depth. -/
theorem Task.level (t : Task) (σ : State) :
    (t.work σ).Level (σ.depth + (t.opened σ).length) := by
  cases t with
  | eval e => exact level_evalWork e σ
  | evalAll es =>
      cases es with
      | nil => trivial
      | cons e es => exact level_ask rfl fun v σ₁ hσ₁ => level_ask_done hσ₁
  | call callee paren arguments =>
      simp only [Task.work]
      split
      · trivial
      · exact ⟨rfl, fun _ _ _ => trivial⟩
  | apply callee arguments => exact level_applyWork callee arguments σ
  | invoke f arguments => exact level_ask_done rfl
  | scope body parent bindings => exact ⟨rfl, fun _ _ _ => trivial⟩
  | execAll ss =>
      cases ss with
      | nil => trivial
      | cons s ss =>
          refine level_ask rfl fun c σ₁ hσ₁ => ?_
          cases c with
          | normal => exact level_answer hσ₁
          | returned v => trivial
  | exec s => exact level_execWork s σ
  | loop condition body =>
      refine level_ask rfl fun v σ₁ hσ₁ => ?_
      split
      · refine level_ask hσ₁ fun c σ₂ hσ₂ => ?_
        cases c with
        | normal => exact level_answer hσ₂
        | returned v => trivial
      · trivial

/-! ### The depth counts the active calls -/

/-- The depth goes beyond `base` by the calls that are active, each of which was admitted. -/
structure Moment.Counted (base : Nat) (m : Moment) : Prop where
  depth : m.state.depth = base + m.active.length
  bounded : m.state.depth ≤ maxDepth
  admitted : ∀ c ∈ m.active, c.Admitted

theorem Work.forall_mem_moments {P : Moment → Prop} {go : (t : Task) → State → Outcome t.Answer}
    {within : Task → State → List Moment} {active : List ActiveCall} {depth : Nat} {before : State}
    (hgo : ∀ t σ, (go t σ).Leaves σ.SameFrame)
    (hwithin : ∀ t σ, σ.depth = depth → ∀ m ∈ within t σ, P m)
    (hhere : ∀ σ, before.SameFrame σ → P ⟨active, σ⟩) {w : Work α} (hlevel : w.Level depth)
    (hrestores : w.Restores before) : ∀ m ∈ w.moments go within active, P m := by
  induction w with
  | done o =>
      obtain ⟨σ, hσ, hsame⟩ := hrestores
      rw [Work.moments, hσ]
      simpa using hhere σ hsame
  | enter t σ leave next ih =>
      obtain ⟨hdepth, hnext⟩ := hlevel
      have hleft := hgo t σ
      rw [Work.moments, List.forall_mem_append]
      refine ⟨hwithin t σ hdepth, ?_⟩
      cases hrun : go t σ with
      | ok a σ' =>
          rw [hrun] at hleft
          have hsame := Outcome.leaves_ok.mp hleft
          obtain ⟨hback, hgoes⟩ := hrestores σ' hsame
          refine List.forall_mem_cons.mpr ⟨hhere _ hback, ?_⟩
          exact ih a (leave σ') (hnext a σ' (hsame.depth.trans hdepth)) (hgoes a)
      | error e σ' =>
          rw [hrun] at hleft
          exact List.forall_mem_singleton.mpr
            (hhere _ (hrestores σ' (Outcome.leaves_error.mp hleft)).1)
      | broken σ' =>
          rw [hrun] at hleft
          exact List.forall_mem_singleton.mpr
            (hhere _ (hrestores σ' (Outcome.leaves_broken.mp hleft)).1)
      | outOfFuel => simp

theorem admitted_of_refusal? {callee : Value} {arguments : List Value} {σ : State}
    (h : refusal? callee arguments.length σ = none) :
    (⟨callee, arguments, σ⟩ : ActiveCall).Admitted := by
  refine ⟨?_, lt_maxDepth_of_refusal? h⟩
  unfold refusal? at h
  split at h
  · cases h
  case h_2 expected harity =>
    split at h
    · cases h
    case isFalse hsame =>
      rw [harity, not_not.mp hsame]

/-- A call that is not admitted sets off nothing. -/
theorem Task.admitted_or_done (t : Task) (σ : State) :
    (∀ c ∈ t.opened σ, c.Admitted) ∨ ∃ o, t.work σ = .done o := by
  cases t with
  | call callee paren arguments =>
      simp only [Task.work]
      split
      · exact .inr ⟨_, rfl⟩
      case h_2 hgoes => exact .inl (List.forall_mem_singleton.mpr (admitted_of_refusal? hgoes))
  | _ => exact .inl (List.forall_mem_nil _)

section Counted

variable {base : Nat} {active : List ActiveCall} {σ : State}

theorem Moment.Counted.sameFrame (h : (⟨active, σ⟩ : Moment).Counted base) {σ' : State}
    (hsame : σ.SameFrame σ') : (⟨active, σ'⟩ : Moment).Counted base where
  depth := hsame.depth.trans h.depth
  bounded := hsame.depth.trans_le h.bounded
  admitted := h.admitted

/-- An admitted call is one more that is active, and there was room for it. -/
theorem Moment.Counted.opened (h : (⟨active, σ⟩ : Moment).Counted base) {t : Task}
    (hadmitted : ∀ c ∈ t.opened σ, c.Admitted) {σ' : State}
    (hdepth : σ'.depth = σ.depth + (t.opened σ).length) :
    (⟨t.opened σ ++ active, σ'⟩ : Moment).Counted base where
  depth := by
    have hbase : σ.depth = base + active.length := h.depth
    rw [hdepth, hbase, List.length_append]
    omega
  bounded := by
    rw [hdepth]
    cases t with
    | call callee paren arguments =>
        have hroom : σ.depth < maxDepth := (hadmitted _ (List.mem_singleton_self _)).2
        exact hroom
    | _ => exact h.bounded
  admitted := List.forall_mem_append.mpr ⟨hadmitted, h.admitted⟩

/-- Every moment of a task counts its active calls, if the first one does. -/
theorem Task.counted_moments (n : Nat) {t : Task} (h : (⟨active, σ⟩ : Moment).Counted base) :
    ∀ m ∈ t.moments n active σ, m.Counted base := by
  induction n generalizing active t σ with
  | zero => exact List.forall_mem_singleton.mpr h
  | succ n ih =>
      rw [Task.moments, List.forall_mem_cons]
      refine ⟨h, ?_⟩
      rcases t.admitted_or_done σ with hadmitted | ⟨o, hdone⟩
      · exact Work.forall_mem_moments (fun t σ => t.leaves_sameFrame n σ)
          (fun t' σ' hdepth => ih (h.opened hadmitted hdepth)) (fun σ' hsame => h.sameFrame hsame)
          (t.level σ) (t.restores σ)
      · have hrestores := t.restores σ
        rw [hdone] at hrestores ⊢
        obtain ⟨σ', hσ', hsame⟩ := hrestores
        rw [Work.moments, hσ']
        exact List.forall_mem_singleton.mpr (h.sameFrame hsame)

end Counted

/-! ### Refused calls -/

/-- A call of something that fits is refused exactly when no further call may be active. -/
theorem call_of_arity? {callee : Value} {arguments : List Value} {σ : State}
    (harity : arity? callee σ = some arguments.length) (hdepth : σ.depth ≤ maxDepth) (paren : Token)
    (n : Nat) :
    callee.call (n + 1) paren arguments σ =
      if σ.depth = maxDepth then
        fail paren .stackOverflow σ
      else
        (callee.apply n arguments { σ with depth := σ.depth + 1 }).leaving fun σ =>
          { σ with depth := σ.depth - 1 } := by
  have hrefusal : refusal? callee arguments.length σ =
      if σ.depth = maxDepth then some .stackOverflow else none := by
    have hfull : maxDepth ≤ σ.depth ↔ σ.depth = maxDepth :=
      ⟨fun hle => Nat.le_antisymm hdepth hle, fun heq => heq.ge⟩
    simp only [refusal?, harity, ne_eq, not_true_eq_false, ↓reduceIte]
    exact if_congr hfull rfl rfl
  rw [Value.call, hrefusal]
  by_cases hfull : σ.depth = maxDepth
  · rw [if_pos hfull, if_pos hfull]
  · rw [if_neg hfull, if_neg hfull]

/-! ### Programs one after another -/

/-- The states behind some programs that were run one after another, however each of them ended. -/
inductive Interpreted (clock : List Int) : State → Prop where
  | start : Interpreted clock (.initial clock)
  | next {σ : State} {fuel : Nat} {program : List (Stmt Site)} {x : Execution}
      (h : Interpreted clock σ) (hended : execute fuel program σ = .done x) :
      Interpreted clock x.state

theorem runAll_leaves_sameFrame (n : Nat) (ss : List (Stmt Site)) (σ : State) :
    (runAll n ss σ).Leaves σ.SameFrame := by
  induction ss generalizing σ with
  | nil => exact Outcome.leaves_ok.mpr (.refl σ)
  | cons s ss ih =>
      have hs := (Task.exec s).leaves_sameFrame n σ
      rw [Task.run] at hs
      rw [runAll]
      cases hrun : s.exec n σ with
      | ok c σ₁ =>
          rw [hrun] at hs
          exact (ih σ₁).mono fun σ₂ h₂ => (Outcome.leaves_ok.mp hs).trans h₂
      | error e σ₁ =>
          rw [hrun] at hs
          exact Outcome.leaves_error.mpr (Outcome.leaves_error.mp hs)
      | broken σ₁ =>
          rw [hrun] at hs
          exact Outcome.leaves_broken.mpr (Outcome.leaves_broken.mp hs)
      | outOfFuel => exact Outcome.leaves_outOfFuel

theorem state?_of_execution {o : Outcome Unit} {x : Execution}
    (h : Execution.ofOutcome o = .done x) : o.state? = some x.state := by
  cases o <;> cases h <;> rfl

theorem Interpreted.depth_eq_zero {clock : List Int} {σ : State} (h : Interpreted clock σ) :
    σ.depth = 0 := by
  induction h with
  | start => rfl
  | next _ hended ih =>
      have hleft := runAll_leaves_sameFrame _ _ _ _ (state?_of_execution hended)
      exact hleft.depth.trans ih

/-- However a task ends, scope and depth are those from before. On the way the depth counts the calls
that are active, and a call that fits is refused exactly when there are 10000. Behind every program
the depth is zero again. -/
theorem depth_counts_calls (t : Task) (σ : State) (hdepth : σ.depth ≤ 10000) (n : Nat) :
    (∀ σ', (t.run n σ).state? = some σ' → σ'.env = σ.env ∧ σ'.depth = σ.depth) ∧
    (t.moments n [] σ).map Moment.state = t.history n σ ∧
    (∀ m ∈ t.moments n [] σ, m.state.depth = σ.depth + m.active.length ∧ m.state.depth ≤ 10000 ∧
      ∀ c ∈ m.active, c.Admitted) ∧
    (∀ (callee : Value) paren arguments, arity? callee σ = some arguments.length →
      callee.call (n + 1) paren arguments σ =
        if σ.depth = 10000 then
          .error ⟨paren, .stackOverflow⟩ σ
        else
          (callee.apply n arguments { σ with depth := σ.depth + 1 }).leaving fun σ =>
            { σ with depth := σ.depth - 1 }) ∧
    RuntimeError.Cause.stackOverflow.message = bytes "Stack overflow." ∧
    ∀ clock σ', Interpreted clock σ' → σ'.depth = 0 := by
  refine ⟨fun σ' hσ' => ?_, t.map_state_moments n [] σ, fun m hm => ?_, ?_, rfl, ?_⟩
  · have hsame := t.leaves_sameFrame n σ σ' hσ'
    exact ⟨hsame.env, hsame.depth⟩
  · have hstart : (⟨[], σ⟩ : Moment).Counted σ.depth := ⟨rfl, hdepth, List.forall_mem_nil _⟩
    have hcounted := t.counted_moments n hstart m hm
    exact ⟨hcounted.depth, hcounted.bounded, hcounted.admitted⟩
  · intro callee paren arguments harity
    exact call_of_arity? harity hdepth paren n
  · intro clock σ' hσ'
    exact hσ'.depth_eq_zero

/-- With room for one call more, a function that calls itself is called once. -/
theorem depth_counts_calls_last :
    let t := Task.execAll (resolve (Reading.ofSource (bytes "fun f(){f();}f();")).program)
    let σ := { State.initial [] with depth := 9999 }
    σ.depth ≤ 10000 ∧
    (∃ m ∈ t.moments 14 [] σ, m.active.length = 1 ∧ m.state.depth = 9999 + 1) ∧
    ∃ e σ', t.run 14 σ = .error e σ' ∧ e.cause = .stackOverflow ∧ σ'.depth = 9999 := by
  intro t σ
  have hdepth : σ.depth ≤ 10000 := by decide
  obtain ⟨hframe, -, hcounted, -⟩ := depth_counts_calls t σ hdepth 14
  refine ⟨hdepth, ?_, ?_⟩
  · have hactive : (t.moments 14 [] σ).any (fun m => m.active.length == 1) = true := by
      decide +kernel
    obtain ⟨m, hm, hlength⟩ := List.any_eq_true.mp hactive
    have hone : m.active.length = 1 := eq_of_beq hlength
    exact ⟨m, hm, hone, by rw [(hcounted m hm).1, hone]⟩
  · have hfails : (match t.run 14 σ with
        | .error e _ => decide (e.cause = .stackOverflow)
        | _ => false) = true := by
      decide +kernel
    cases hrun : t.run 14 σ with
    | error e σ' =>
        rw [hrun] at hfails hframe
        exact ⟨e, σ', rfl, of_decide_eq_true hfails, (hframe σ' rfl).2⟩
    | ok a σ' =>
        rw [hrun] at hfails
        cases hfails
    | broken σ' =>
        rw [hrun] at hfails
        cases hfails
    | outOfFuel =>
        rw [hrun] at hfails
        cases hfails

end Lox
