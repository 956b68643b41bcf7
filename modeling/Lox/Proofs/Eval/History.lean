import Lox.Proofs.Eval.Contract

/-!
# Histories

The states that a run comes to, in the order in which it comes to them. A conduct says how one state
may lead to a later one and what holds of each. If every step of every task conforms to it, so does
the history of every run, whether or not the run ends.
-/

namespace Lox

variable {α : Type}

/-- The state that a computation leaves behind, if it has ended. -/
def Outcome.state? : Outcome α → Option State
  | .ok _ σ => some σ
  | .error _ σ => some σ
  | .broken σ => some σ
  | .outOfFuel => none

def Outcome.Leaves (o : Outcome α) (P : State → Prop) : Prop :=
  ∀ σ, o.state? = some σ → P σ

section Leaves

variable {P Q : State → Prop}

@[simp]
theorem Outcome.leaves_ok {a : α} {σ : State} : (Outcome.ok a σ).Leaves P ↔ P σ := by
  simp [Leaves, state?]

@[simp]
theorem Outcome.leaves_error {e : RuntimeError} {σ : State} :
    (Outcome.error e σ : Outcome α).Leaves P ↔ P σ := by
  simp [Leaves, state?]

@[simp]
theorem Outcome.leaves_broken {σ : State} : (Outcome.broken σ : Outcome α).Leaves P ↔ P σ := by
  simp [Leaves, state?]

@[simp]
theorem Outcome.leaves_outOfFuel : (Outcome.outOfFuel : Outcome α).Leaves P := by
  simp [Leaves, state?]

theorem Outcome.Leaves.mono {o : Outcome α} (h : o.Leaves P) (hPQ : ∀ σ, P σ → Q σ) :
    o.Leaves Q :=
  fun σ hσ => hPQ σ (h σ hσ)

end Leaves

/-- The states that a computation comes to while `go` runs its tasks, given those that each task
comes to. -/
def Work.history (go : (t : Task) → State → Outcome t.Answer)
    (within : Task → State → List State) : Work α → List State
  | .done o => o.state?.toList
  | .enter t σ leave next =>
      within t σ ++
        match go t σ with
        | .ok a σ' => leave σ' :: (next a (leave σ')).history go within
        | .error _ σ' => [leave σ']
        | .broken σ' => [leave σ']
        | .outOfFuel => []

/-- The states that the run of a task comes to. The run need not end: more fuel shows more of it. -/
def Task.history : Nat → Task → State → List State
  | 0, _, σ => [σ]
  | n + 1, t, σ => σ :: (t.work σ).history (Task.run n) (Task.history n)

def runHistory (n : Nat) : List (Stmt Site) → State → List State
  | [], _ => []
  | s :: ss, σ =>
      Task.history n (.exec s) σ ++
        match s.exec n σ with
        | .ok _ σ' => runHistory n ss σ'
        | _ => []

/-- What goes on in a run under a contract: which tasks are set off, how the state moves, and what
it keeps. -/
structure Conduct where
  ready : Task → State → Prop
  moves : State → State → Prop
  keeps : State → Prop

/-- Every move of a computation from `before` on conforms to the conduct. -/
def Work.Conforms (C : Contract) (G : Conduct) : State → Work α → Prop
  | before, .done o => o.Leaves fun σ => G.moves before σ ∧ G.keeps σ
  | before, .enter t σ leave next =>
      (G.moves before σ ∧ G.keeps σ ∧ G.ready t σ) ∧
      ∀ σ', G.moves σ σ' → G.keeps σ' →
        (G.moves σ' (leave σ') ∧ G.keeps (leave σ')) ∧
        ∀ a, C.ok t σ a σ' → (next a (leave σ')).Conforms C G (leave σ')

structure Conduct.Holds (G : Conduct) (C : Contract) : Prop where
  refl : ∀ σ, G.moves σ σ
  trans : ∀ {a b c}, G.moves a b → G.moves b c → G.moves a c
  step : ∀ t σ, C.pre t σ → G.ready t σ → G.keeps σ → (t.work σ).Conforms C G σ

/-- The states of a history lie between the state `before` and the one that `o` leaves, each moves
on to the later ones, and all keep what is kept. -/
structure Conduct.Orderly (G : Conduct) (before : State) (o : Outcome α) (states : List State) :
    Prop where
  leaves : o.Leaves fun σ => G.moves before σ ∧ G.keeps σ
  since : ∀ τ ∈ states, G.moves before τ ∧ G.keeps τ
  upTo : ∀ τ ∈ states, o.Leaves (G.moves τ)
  pairwise : states.Pairwise G.moves

section Conduct

variable {C : Contract} {G : Conduct}

theorem Work.conforms_ask (hrefl : ∀ σ, G.moves σ σ) {before σ : State} {t : Task}
    {next : t.Answer → State → Work α} (hmoves : G.moves before σ) (hkeeps : G.keeps σ)
    (hready : G.ready t σ)
    (hnext : ∀ a σ', C.ok t σ a σ' → G.moves σ σ' → G.keeps σ' →
      (next a σ').Conforms C G σ') : (Work.ask t σ next).Conforms C G before :=
  ⟨⟨hmoves, hkeeps, hready⟩, fun σ' hmoves' hkeeps' =>
    ⟨⟨hrefl σ', hkeeps'⟩, fun a hok => hnext a σ' hok hmoves' hkeeps'⟩⟩

theorem Conduct.Orderly.append {β : Type} (h : G.Holds C) {a b : State} {o : Outcome β}
    {o' : Outcome α} {states later : List State} (hfirst : G.Orderly a o states)
    (hend : o.Leaves fun σ => G.moves σ b) (hended : ∃ σ, o.state? = some σ)
    (hlater : G.Orderly b o' later) : G.Orderly a o' (states ++ later) := by
  obtain ⟨σ, hσ⟩ := hended
  have hreach (τ : State) (hτ : τ ∈ states) : G.moves τ b :=
    h.trans (hfirst.upTo τ hτ σ hσ) (hend σ hσ)
  have hstart : G.moves a b := h.trans (hfirst.leaves σ hσ).1 (hend σ hσ)
  constructor
  · exact hlater.leaves.mono fun τ hτ => ⟨h.trans hstart hτ.1, hτ.2⟩
  · intro τ hτ
    rcases List.mem_append.mp hτ with hτ | hτ
    · exact hfirst.since τ hτ
    · exact ⟨h.trans hstart (hlater.since τ hτ).1, (hlater.since τ hτ).2⟩
  · intro τ hτ
    rcases List.mem_append.mp hτ with hτ | hτ
    · exact hlater.leaves.mono fun τ' hτ' => h.trans (hreach τ hτ) hτ'.1
    · exact hlater.upTo τ hτ
  · refine List.pairwise_append.mpr ⟨hfirst.pairwise, hlater.pairwise, fun τ hτ τ' hτ' => ?_⟩
    exact h.trans (hreach τ hτ) (hlater.since τ' hτ').1

theorem Conduct.Orderly.cons (h : G.Holds C) {a b : State} {o : Outcome α} {states : List State}
    (hmoves : G.moves a b) (hkeeps : G.keeps b) (hstates : G.Orderly b o states) :
    G.Orderly a o (b :: states) := by
  constructor
  · exact hstates.leaves.mono fun τ hτ => ⟨h.trans hmoves hτ.1, hτ.2⟩
  · intro τ hτ
    rcases List.mem_cons.mp hτ with rfl | hτ
    · exact ⟨hmoves, hkeeps⟩
    · exact ⟨h.trans hmoves (hstates.since τ hτ).1, (hstates.since τ hτ).2⟩
  · intro τ hτ
    rcases List.mem_cons.mp hτ with rfl | hτ
    · exact hstates.leaves.mono fun τ' hτ' => hτ'.1
    · exact hstates.upTo τ hτ
  · exact List.pairwise_cons.mpr ⟨fun τ hτ => (hstates.since τ hτ).1, hstates.pairwise⟩

/-- A history that ends where the computation does. -/
theorem Conduct.orderly_end (h : G.Holds C) {before : State} {o : Outcome α}
    (ho : o.Leaves fun σ => G.moves before σ ∧ G.keeps σ) : G.Orderly before o o.state?.toList := by
  have hmem (τ : State) (hτ : τ ∈ o.state?.toList) : o.state? = some τ := by simpa using hτ
  refine ⟨ho, fun τ hτ => ho τ (hmem τ hτ), fun τ hτ σ hσ => ?_, ?_⟩
  · obtain rfl : τ = σ := Option.some.inj ((hmem τ hτ).symm.trans hσ)
    exact h.refl τ
  · cases o.state? <;> simp

/-- A history of a computation that has no end yet. -/
theorem Conduct.Orderly.unended {β : Type} {before : State} {states : List State}
    {o : Outcome β} (hstates : G.Orderly before o states) :
    G.Orderly before (.outOfFuel : Outcome α) states :=
  ⟨Outcome.leaves_outOfFuel, hstates.since, fun _ _ => Outcome.leaves_outOfFuel, hstates.pairwise⟩

theorem Work.orderly_history (h : G.Holds C) (hC : C.Holds) {n : Nat}
    (hwithin : ∀ t σ, C.pre t σ → G.ready t σ → G.keeps σ →
      G.Orderly σ (t.run n σ) (t.history n σ))
    {w : Work α} {before : State} {ok : α → State → Prop} {error : RuntimeError → State → Prop}
    (hmeets : w.Meets C ok error) (hw : w.Conforms C G before) :
    G.Orderly before (w.run (Task.run n)) (w.history (Task.run n) (Task.history n)) := by
  induction w generalizing before with
  | done o => exact Conduct.orderly_end h hw
  | enter t σ leave next ih =>
      obtain ⟨hpre, hnext, -⟩ := hmeets
      obtain ⟨⟨hmoves, hkeeps, hready⟩, hconforms⟩ := hw
      have hend := hC.run n hpre
      have htask := hwithin t σ hpre hready hkeeps
      -- The task starts behind `before`, so its history does too.
      have hfirst : G.Orderly before (t.run n σ) (t.history n σ) :=
        ⟨htask.leaves.mono fun τ hτ => ⟨h.trans hmoves hτ.1, hτ.2⟩,
          fun τ hτ => ⟨h.trans hmoves (htask.since τ hτ).1, (htask.since τ hτ).2⟩,
          htask.upTo, htask.pairwise⟩
      rw [Work.run_enter, Work.history]
      cases hrun : t.run n σ with
      | ok a σ' =>
          rw [hrun] at hend hfirst htask
          obtain ⟨hmoves', hkeeps'⟩ := Outcome.leaves_ok.mp htask.leaves
          obtain ⟨⟨hleave, hleft⟩, hgoes⟩ := hconforms σ' hmoves' hkeeps'
          refine hfirst.append h (Outcome.leaves_ok.mpr hleave) ⟨σ', rfl⟩ ?_
          have hrest := ih a (leave σ') (hnext a σ' ⟨n, hrun⟩ hend) (hgoes a hend)
          exact hrest.cons h (h.refl _) hleft
      | error e σ' =>
          rw [hrun] at hfirst htask
          obtain ⟨hmoves', hkeeps'⟩ := Outcome.leaves_error.mp htask.leaves
          obtain ⟨⟨hleave, hleft⟩, -⟩ := hconforms σ' hmoves' hkeeps'
          refine hfirst.append h (Outcome.leaves_error.mpr hleave) ⟨σ', rfl⟩ ?_
          exact Conduct.orderly_end h (Outcome.leaves_error.mpr ⟨h.refl _, hleft⟩)
      | broken σ' =>
          rw [hrun] at hend
          exact hend.elim
      | outOfFuel =>
          rw [hrun] at hfirst
          simp only [List.append_nil]
          exact hfirst.unended

theorem Conduct.Holds.history (h : G.Holds C) (hC : C.Holds) (n : Nat) {t : Task} {σ : State}
    (hpre : C.pre t σ) (hready : G.ready t σ) (hkeeps : G.keeps σ) :
    G.Orderly σ (t.run n σ) (t.history n σ) := by
  induction n generalizing t σ with
  | zero =>
      rw [Task.run_zero, Task.history]
      have hstart : G.Orderly σ (.outOfFuel : Outcome t.Answer) [] :=
        ⟨Outcome.leaves_outOfFuel, by simp, by simp, .nil⟩
      exact hstart.cons h (h.refl σ) hkeeps
  | succ n ih =>
      rw [Task.run_succ, Task.history]
      have hwork := Work.orderly_history h hC
        (fun t σ hpre hready hkeeps => ih hpre hready hkeeps) (hC t σ hpre)
        (h.step t σ hpre hready hkeeps)
      exact hwork.cons h (h.refl σ) hkeeps

/-! ### Tasks that are set off -/

theorem Work.ready_of_trace (h : G.Holds C) (hC : C.Holds) {n : Nat}
    (hwithin : ∀ t σ, C.pre t σ → G.ready t σ → G.keeps σ →
      ∀ p ∈ t.trace n σ, G.ready p.1 p.2 ∧ G.keeps p.2)
    {w : Work α} {before : State} {ok : α → State → Prop} {error : RuntimeError → State → Prop}
    (hmeets : w.Meets C ok error) (hw : w.Conforms C G before) :
    ∀ p ∈ w.trace (Task.run n) (Task.trace n), G.ready p.1 p.2 ∧ G.keeps p.2 := by
  induction w generalizing before with
  | done o => simp [Work.trace]
  | enter t σ leave next ih =>
      obtain ⟨hpre, hnext, -⟩ := hmeets
      obtain ⟨⟨-, hkeeps, hready⟩, hconforms⟩ := hw
      have hend := hC.run n hpre
      have hleft := (h.history hC n hpre hready hkeeps).leaves
      rw [Work.trace, List.forall_mem_append]
      refine ⟨hwithin t σ hpre hready hkeeps, ?_⟩
      cases hrun : t.run n σ with
      | ok a σ' =>
          rw [hrun] at hend hleft
          obtain ⟨hmoves', hkeeps'⟩ := Outcome.leaves_ok.mp hleft
          exact ih a (leave σ') (hnext a σ' ⟨n, hrun⟩ hend)
            ((hconforms σ' hmoves' hkeeps').2 a hend)
      | error e σ' => simp
      | broken σ' => simp
      | outOfFuel => simp

theorem Conduct.Holds.trace (h : G.Holds C) (hC : C.Holds) (n : Nat) {t : Task} {σ : State}
    (hpre : C.pre t σ) (hready : G.ready t σ) (hkeeps : G.keeps σ) :
    ∀ p ∈ Task.trace n t σ, G.ready p.1 p.2 ∧ G.keeps p.2 := by
  induction n generalizing t σ with
  | zero => simpa [Task.trace] using ⟨hready, hkeeps⟩
  | succ n ih =>
      rw [Task.trace, List.forall_mem_cons]
      refine ⟨⟨hready, hkeeps⟩, ?_⟩
      exact Work.ready_of_trace h hC
        (fun t σ hpre hready hkeeps => ih hpre hready hkeeps) (hC t σ hpre)
        (h.step t σ hpre hready hkeeps)

end Conduct

end Lox
