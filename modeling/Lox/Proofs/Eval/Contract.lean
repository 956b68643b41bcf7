import Lox.Proofs.Eval.Task

/-!
# Contracts for tasks

A contract says in which states a task may be set off, and what then holds of its end. It is enough
that each single step keeps it: then every run keeps it, with any fuel, and every task that a run
reaches is set off in a state in which it may be. A contract rules out that a computation breaks.
-/

namespace Lox

variable {α : Type}

def Outcome.Meets (o : Outcome α) (ok : α → State → Prop) (error : RuntimeError → State → Prop) :
    Prop :=
  match o with
  | .ok a σ => ok a σ
  | .error e σ => error e σ
  | .broken _ => False
  | .outOfFuel => True

theorem Outcome.Meets.mono {o : Outcome α} {ok ok' : α → State → Prop}
    {error error' : RuntimeError → State → Prop} (h : o.Meets ok error)
    (hok : ∀ a σ, ok a σ → ok' a σ) (herror : ∀ e σ, error e σ → error' e σ) :
    o.Meets ok' error' := by
  cases o with
  | ok a σ => exact hok a σ h
  | error e σ => exact herror e σ h
  | broken σ => exact h
  | outOfFuel => trivial

structure Contract where
  pre : Task → State → Prop
  ok : (t : Task) → State → t.Answer → State → Prop
  error : Task → State → RuntimeError → State → Prop

/-- The task comes to this answer, with enough fuel. -/
def Task.Gives (t : Task) (σ : State) (a : t.Answer) (σ' : State) : Prop :=
  ∃ n, t.run n σ = .ok a σ'

/-- The tasks of a computation may be set off, and if they keep the contract it ends as stated. -/
def Work.Meets (C : Contract) :
    Work α → (α → State → Prop) → (RuntimeError → State → Prop) → Prop
  | .done o, ok, error => o.Meets ok error
  | .enter t σ leave next, ok, error =>
      C.pre t σ ∧
        (∀ a σ', t.Gives σ a σ' → C.ok t σ a σ' → (next a (leave σ')).Meets C ok error) ∧
        ∀ e σ', C.error t σ e σ' → error e (leave σ')

/-- Each step of each task among `T` keeps the contract. -/
def Contract.HoldsAmong (C : Contract) (T : Task → State → Prop) : Prop :=
  ∀ t σ, T t σ → C.pre t σ → (t.work σ).Meets C (C.ok t σ) (C.error t σ)

/-- Each step of each task keeps the contract. -/
def Contract.Holds (C : Contract) : Prop :=
  ∀ t σ, C.pre t σ → (t.work σ).Meets C (C.ok t σ) (C.error t σ)

theorem Contract.Holds.among {C : Contract} (h : C.Holds) (T : Task → State → Prop) :
    C.HoldsAmong T :=
  fun t σ _ hpre => h t σ hpre

theorem Work.meets_ask {C : Contract} {ok : α → State → Prop} {error : RuntimeError → State → Prop}
    {t : Task} {σ : State} {next : t.Answer → State → Work α} (hpre : C.pre t σ)
    (hok : ∀ a σ', t.Gives σ a σ' → C.ok t σ a σ' → (next a σ').Meets C ok error)
    (herror : ∀ e σ', C.error t σ e σ' → error e σ') : (Work.ask t σ next).Meets C ok error :=
  ⟨hpre, hok, herror⟩

/-! ### Tasks that are set off -/

/-- The tasks that a computation comes to while `go` runs them, given those that each comes to. -/
def Work.trace (go : (t : Task) → State → Outcome t.Answer)
    (within : Task → State → List (Task × State)) : Work α → List (Task × State)
  | .done _ => []
  | .enter t σ leave next =>
      within t σ ++
        match go t σ with
        | .ok a σ' => (next a (leave σ')).trace go within
        | _ => []

/-- The tasks that are set off in the run of a task, itself first, with their states. The run need
not end: more fuel shows more of it. -/
def Task.trace : Nat → Task → State → List (Task × State)
  | 0, t, σ => [(t, σ)]
  | n + 1, t, σ => (t, σ) :: (t.work σ).trace (Task.run n) (Task.trace n)

/-- The tasks that a program comes to, statement by statement. -/
def runTrace (n : Nat) : List (Stmt Site) → State → List (Task × State)
  | [], _ => []
  | s :: ss, σ =>
      Task.trace n (.exec s) σ ++
        match s.exec n σ with
        | .ok _ σ' => runTrace n ss σ'
        | _ => []

/-! ### Runs under a contract -/

section Runs

variable {C : Contract} {T : Task → State → Prop} {n : Nat} {ok : α → State → Prop}
  {error : RuntimeError → State → Prop} {w : Work α}

theorem Work.meets_run
    (hrun : ∀ t σ, (∀ p ∈ t.trace n σ, T p.1 p.2) → C.pre t σ →
      (t.run n σ).Meets (C.ok t σ) (C.error t σ))
    (h : w.Meets C ok error) (hamong : ∀ p ∈ w.trace (Task.run n) (Task.trace n), T p.1 p.2) :
    (w.run (Task.run n)).Meets ok error := by
  induction w with
  | done o => exact h
  | enter t σ leave next ih =>
      obtain ⟨hpre, hnext, herror⟩ := h
      rw [Work.trace, List.forall_mem_append] at hamong
      have hend := hrun t σ hamong.1 hpre
      rw [Work.run_enter]
      cases hgives : t.run n σ with
      | ok a σ' =>
          rw [hgives] at hend hamong
          exact ih a (leave σ') (hnext a σ' ⟨n, hgives⟩ hend) hamong.2
      | error e σ' =>
          rw [hgives] at hend
          exact herror e σ' hend
      | broken σ' =>
          rw [hgives] at hend
          exact hend
      | outOfFuel => trivial

theorem Contract.HoldsAmong.run (h : C.HoldsAmong T) (n : Nat) {t : Task} {σ : State}
    (hamong : ∀ p ∈ t.trace n σ, T p.1 p.2) (hpre : C.pre t σ) :
    (t.run n σ).Meets (C.ok t σ) (C.error t σ) := by
  induction n generalizing t σ with
  | zero =>
      rw [Task.run_zero]
      trivial
  | succ n ih =>
      rw [Task.trace, List.forall_mem_cons] at hamong
      rw [Task.run_succ]
      exact Work.meets_run (fun t σ hamong hpre => ih hamong hpre) (h t σ hamong.1 hpre) hamong.2

theorem Work.pre_of_trace (h : C.HoldsAmong T)
    (hwithin : ∀ t σ, (∀ p ∈ t.trace n σ, T p.1 p.2) → C.pre t σ →
      ∀ p ∈ t.trace n σ, C.pre p.1 p.2)
    (hw : w.Meets C ok error) (hamong : ∀ p ∈ w.trace (Task.run n) (Task.trace n), T p.1 p.2) :
    ∀ p ∈ w.trace (Task.run n) (Task.trace n), C.pre p.1 p.2 := by
  induction w with
  | done o => simp [Work.trace]
  | enter t σ leave next ih =>
      obtain ⟨hpre, hnext, -⟩ := hw
      rw [Work.trace, List.forall_mem_append] at hamong
      have hend := h.run n hamong.1 hpre
      rw [Work.trace, List.forall_mem_append]
      refine ⟨hwithin t σ hamong.1 hpre, ?_⟩
      cases hgives : t.run n σ with
      | ok a σ' =>
          rw [hgives] at hend hamong
          exact ih a (leave σ') (hnext a σ' ⟨n, hgives⟩ hend) hamong.2
      | error e σ' => simp
      | broken σ' => simp
      | outOfFuel => simp

theorem Contract.HoldsAmong.trace (h : C.HoldsAmong T) (n : Nat) {t : Task} {σ : State}
    (hamong : ∀ p ∈ t.trace n σ, T p.1 p.2) (hpre : C.pre t σ) :
    ∀ p ∈ t.trace n σ, C.pre p.1 p.2 := by
  induction n generalizing t σ with
  | zero => simpa [Task.trace] using hpre
  | succ n ih =>
      rw [Task.trace, List.forall_mem_cons] at hamong ⊢
      exact ⟨hpre, Work.pre_of_trace h (fun t σ hamong hpre => ih hamong hpre)
        (h t σ hamong.1 hpre) hamong.2⟩

theorem Contract.Holds.run (h : C.Holds) (n : Nat) {t : Task} {σ : State} (hpre : C.pre t σ) :
    (t.run n σ).Meets (C.ok t σ) (C.error t σ) :=
  (h.among fun _ _ => True).run n (fun _ _ => trivial) hpre

theorem Contract.Holds.trace (h : C.Holds) (n : Nat) {t : Task} {σ : State} (hpre : C.pre t σ) :
    ∀ p ∈ t.trace n σ, C.pre p.1 p.2 :=
  (h.among fun _ _ => True).trace n (fun _ _ => trivial) hpre

end Runs

end Lox
