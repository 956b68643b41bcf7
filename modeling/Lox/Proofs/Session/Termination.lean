import Lox.Proofs.Eval.Termination
import Lox.Proofs.Session.Joined
import Lox.Proofs.Session.Receivers

/-!
# Sessions without loops end

If no source of a session holds a loop, no function that was ever made holds one either, so every
task of every run is lower than the one that set it off. All runs of the session then end, also those
that call a function without end: the calls that may be active at once are bounded.
-/

namespace Lox

open Resolution Eval

mutual

/-- No loop stands in the statement, nor in a function declared there. -/
def Stmt.loopFree {ρ : Type} : Stmt ρ → Bool
  | .block body => Stmt.loopFreeAll body
  | .class _ _ methods => FunctionDecl.loopFreeAll methods
  | .function decl => decl.loopFree
  | .ifThen _ thenBranch => thenBranch.loopFree
  | .ifElse _ thenBranch elseBranch => thenBranch.loopFree && elseBranch.loopFree
  | .while _ _ => false
  | .expr _ => true
  | .print _ => true
  | .return _ _ => true
  | .var _ _ => true

def Stmt.loopFreeAll {ρ : Type} : List (Stmt ρ) → Bool
  | [] => true
  | s :: ss => s.loopFree && Stmt.loopFreeAll ss

def FunctionDecl.loopFree {ρ : Type} : FunctionDecl ρ → Bool
  | ⟨_, _, body⟩ => Stmt.loopFreeAll body

def FunctionDecl.loopFreeAll {ρ : Type} : List (FunctionDecl ρ) → Bool
  | [] => true
  | d :: ds => d.loopFree && FunctionDecl.loopFreeAll ds

end

/-- The source holds no loop; one of either kind is a `while` in its statements. -/
def LoopFree (source : Bytes) : Prop :=
  Stmt.loopFreeAll (Reading.ofSource source).program = true

instance (source : Bytes) : Decidable (LoopFree source) :=
  inferInstanceAs (Decidable (_ = true))

def Resolution.Place.loopFree : Place → Bool
  | .stmt s => s.loopFree
  | .stmts ss => Stmt.loopFreeAll ss
  | .function _ d => d.loopFree
  | .methods ds => FunctionDecl.loopFreeAll ds
  | .expr _ => true
  | .arguments _ => true

/-! ### The walk over sources without loops -/

theorem loopFree_superclass (ctx : Context) (base : Option (Token × Unit)) :
    ∀ c ∈ Place.superclass ctx base, c.2.loopFree = true := by
  cases base with
  | none => simp [Place.superclass]
  | some base => simp [Place.superclass, Place.loopFree]

theorem loopFree_expr? (ctx : Context) (e : Option (Expr Unit)) :
    ∀ c ∈ Place.expr? ctx e, c.2.loopFree = true := by
  cases e with
  | none => simp [Place.expr?]
  | some e => simp [Place.expr?, Place.loopFree]

theorem loopFree_operands (e : Expr Unit) : ∀ p ∈ Place.operands e, p.loopFree = true := by
  cases e <;> simp [Place.operands, Place.loopFree]

theorem loopFree_parts {s : Stmt Unit} (h : s.loopFree = true) (ctx : Context) :
    ∀ c ∈ Place.parts ctx s, c.2.loopFree = true := by
  cases s with
  | «class» name base ds =>
      simp only [Place.parts, List.forall_mem_append, List.forall_mem_singleton]
      exact ⟨loopFree_superclass _ base, h⟩
  | ifElse condition thenBranch elseBranch =>
      simpa [Place.parts, Place.loopFree, Stmt.loopFree] using h
  | «return» keyword value => exact loopFree_expr? ctx value
  | var name init => exact loopFree_expr? _ init
  | «while» condition body => cases h
  | expr e => simp [Place.parts, Place.loopFree]
  | print e => simp [Place.parts, Place.loopFree]
  | _ => simpa [Place.parts, Place.loopFree, Stmt.loopFree] using h

theorem loopFree_next {p : Place} (h : p.loopFree = true) (ctx : Context) :
    ∀ c ∈ p.next ctx, c.2.loopFree = true := by
  cases p with
  | expr e =>
      simp only [Place.next, List.forall_mem_map]
      exact loopFree_operands e
  | stmt s => exact loopFree_parts h ctx
  | function kind d =>
      obtain ⟨name, params, body⟩ := d
      simpa [Place.next, Place.loopFree, FunctionDecl.loopFree] using h
  | arguments es => cases es <;> simp [Place.next, Place.loopFree]
  | stmts ss => cases ss <;> simp_all [Place.next, Place.loopFree, Stmt.loopFreeAll]
  | methods ds => cases ds <;> simp_all [Place.next, Place.loopFree, FunctionDecl.loopFreeAll]

theorem Resolution.Visits.loopFree {program : List (Stmt Unit)}
    (h : Stmt.loopFreeAll program = true) {ctx : Context} {p : Place}
    (hvisit : Visits program ctx p) : p.loopFree = true := by
  induction hvisit with
  | start => exact h
  | next _ hnext ih => exact loopFree_next ih _ _ hnext

/-! ### Programs -/

section Programs

variable {V : Context → Place → Prop}

theorem not_loops_of_pre (hfree : ∀ ctx p, V ctx p → p.loopFree = true) {s : Stmt Site} {σ : State}
    (hpre : (soundness V).pre (.exec s) σ) : ¬(Task.exec s).Loops := by
  obtain ⟨-, ctx, node, hvisit, rfl, -⟩ := hpre
  have hnode := hfree ctx _ hvisit
  intro hloops
  cases node with
  | «while» condition body => cases hnode
  | _ => exact hloops

theorem loopless_holds (hwalked : Walked V) (hfree : ∀ ctx p, V ctx p → p.loopFree = true) :
    (soundness V).loopless.Holds :=
  (soundness_holds hwalked).loopless fun _ _ _ hpre => not_loops_of_pre hfree hpre trivial

theorem runAll_halts (hwalked : Walked V) (hfree : ∀ ctx p, V ctx p → p.loopFree = true)
    {ss : List (Stmt Unit)} {σ : State} (hvisit : V .top (.stmts ss)) (h : σ.Sound V)
    (henv : σ.env = State.globals) : ∃ n, runAll n (Stmt.resolveAll .top ss) σ ≠ .outOfFuel := by
  induction ss generalizing σ with
  | nil =>
      refine ⟨0, ?_⟩
      rintro ⟨⟩
  | cons s ss ih =>
      obtain ⟨hs, hss, heq⟩ := hwalked.program_cons hvisit
      have hpre := pre_exec_top h hs henv
      obtain ⟨n, hn⟩ := (loopless_holds hwalked hfree).halts ⟨hpre, not_loops_of_pre hfree hpre⟩
      have hend := (soundness_holds hwalked).run n hpre
      rw [heq]
      rw [Task.run] at hn hend
      cases hrun : (s.resolve .top).exec n σ with
      | ok c σ₁ =>
          rw [hrun] at hend
          obtain ⟨m, hm⟩ := ih hss hend.1.sound (hend.1.env.trans henv)
          have hfirst := (Task.run_upTo (Nat.le_max_left n m) (.exec (s.resolve .top)) σ).eq_of_ne hn
          have hrest := (runAll_upTo (Nat.le_max_right n m) (Stmt.resolveAll .top ss) σ₁).eq_of_ne hm
          rw [Task.run, Task.run, hrun] at hfirst
          refine ⟨max n m, ?_⟩
          rw [runAll, hfirst]
          exact fun hout => hm (hrest.symm.trans hout)
      | error e σ₁ =>
          refine ⟨n, ?_⟩
          rw [runAll, hrun]
          rintro ⟨⟩
      | broken σ₁ =>
          rw [hrun] at hend
          exact hend.elim
      | outOfFuel => exact absurd hrun hn

end Programs

namespace Session

/-! ### Sessions -/

theorem loopFree_visited {steps : List Step}
    (h : ∀ source, Step.run source ∈ steps → LoopFree source) (ctx : Context) (p : Place)
    (hvisit : Visited steps ctx p) : p.loopFree = true := by
  obtain ⟨source, hmem, -, hvisit⟩ := hvisit
  exact hvisit.loopFree (h source hmem)

theorem run_halts {all : List Step} (hfree : ∀ source, Step.run source ∈ all → LoopFree source)
    {session : Session} (h : session.state.Sound (Visited all)) {source : Bytes}
    (hmem : Step.run source ∈ all) : ∃ n, session.run n source ≠ .outOfFuel := by
  by_cases haccepted : Accepted source
  · obtain ⟨n, hn⟩ := runAll_halts (walked_visited all) (loopFree_visited hfree)
      ⟨source, hmem, haccepted, .start⟩ (entry_sound h) rfl
    refine ⟨n, ?_⟩
    rw [run_of_accepted haccepted, resolve]
    cases hend : runAll n (Stmt.resolveAll .top (Reading.ofSource source).program)
        session.entry with
    | outOfFuel => exact absurd hend hn
    | _ => rintro ⟨⟩
  · obtain ⟨diagnostics, events, hrun⟩ := run_of_not_accepted haccepted
    refine ⟨0, ?_⟩
    rw [hrun]
    rintro ⟨⟩

/-- From some fuel on a step ends, and always in the same way. -/
theorem step_halts {all : List Step} (hfree : ∀ source, Step.run source ∈ all → LoopFree source)
    {session : Session} (h : session.state.Sound (Visited all)) {step : Step} (hstep : step ∈ all) :
    ∃ n answer session', ∀ m ≥ n, session.step m step = .done (answer, session') := by
  cases step with
  | parse source => exact ⟨0, _, session, fun _ _ => rfl⟩
  | run source =>
      obtain ⟨n, hn⟩ := run_halts hfree h hstep
      have hbroken := (sound_step n h hstep).1
      rw [step] at hbroken
      cases hend : session.run n source with
      | done result =>
          obtain ⟨report, session'⟩ := result
          refine ⟨n, .ran report, session', fun m hm => ?_⟩
          rw [step, run_mono hm hn, hend]
          rfl
      | broken =>
          rw [hend] at hbroken
          exact absurd rfl hbroken
      | outOfFuel => exact absurd hend hn

theorem play_halts {all : List Step} (hfree : ∀ source, Step.run source ∈ all → LoopFree source)
    {session : Session} (h : session.state.Sound (Visited all)) (steps : List Step)
    (hsub : ∀ step ∈ steps, step ∈ all) :
    ∃ n answers after, ∀ m ≥ n, session.play m steps = .done (answers, after) := by
  induction steps generalizing session with
  | nil => exact ⟨0, [], session, fun _ _ => rfl⟩
  | cons step steps ih =>
      rw [List.forall_mem_cons] at hsub
      obtain ⟨n, answer, session', hstep⟩ := step_halts hfree h hsub.1
      have hsound := (sound_step n h hsub.1).2 answer session' (hstep n le_rfl)
      obtain ⟨n', answers, after, hplay⟩ := ih hsound hsub.2
      refine ⟨max n n', answer :: answers, after, fun m hm => ?_⟩
      have hfirst := hstep m (le_trans (Nat.le_max_left n n') hm)
      have hrest := hplay m (le_trans (Nat.le_max_right n n') hm)
      simp only [play, hfirst, Ending.bind, hrest, Ending.map]

theorem not_loops_of_trace {steps : List Step}
    (hfree : ∀ source, Step.run source ∈ steps → LoopFree source) (clock : List Int) (fuel : Nat) :
    ∀ p ∈ (start clock).trace fuel steps, ¬p.1.Loops := by
  have hwalked := walked_visited steps
  have hloops := loopFree_visited hfree
  refine forall_mem_trace (J := fun _ => True) fuel (fun source session hmem haccepted h _ => ?_)
    (fun _ _ _ _ _ _ _ _ => trivial) steps (fun _ hstep => hstep) (sound_start clock _) trivial
  refine forall_mem_runTrace (I := fun _ => True) hwalked fuel
    (fun s σ hs h henv _ => ⟨fun p hp => ?_, fun _ _ _ => trivial⟩)
    ⟨source, hmem, haccepted, .start⟩ (entry_sound h) rfl trivial
  have hpre := pre_exec_top h hs henv
  exact ((loopless_holds hwalked hloops).trace fuel ⟨hpre, not_loops_of_pre hloops hpre⟩ p hp).2

theorem call_overflows {callee : Value} {arguments : List Value} {σ : State}
    (harity : arity? callee σ = some arguments.length) (hdepth : maxDepth ≤ σ.depth) (paren : Token)
    (n : Nat) : callee.call (n + 1) paren arguments σ = fail paren .stackOverflow σ := by
  have hrefused : refusal? callee arguments.length σ = some .stackOverflow := by
    simp [refusal?, harity, hdepth]
  rw [Value.call, hrefused]

/-- A session whose sources hold no loop ends. Its tasks are well founded: each one that another sets
off lies in a call more, of which only so many are active, or has less syntax. A call at the bound
fails. The chains of scopes and of classes lead to ever older ones. -/
theorem loop_free_ends (clock : List Int) (steps : List Step)
    (hfree : ∀ source, Step.run source ∈ steps → LoopFree source) :
    (∃ enough answers after, ∀ fuel ≥ enough,
      (start clock).play fuel steps = .done (answers, after)) ∧
    (WellFounded fun p q : Task × State => p.1.Lower p.2 q.1 q.2) ∧
    (∀ fuel, ∀ p ∈ (start clock).trace fuel steps,
      ∀ n, ∀ q ∈ (p.1.work p.2).asked (Task.run n), q.1.Lower q.2 p.1 p.2) ∧
    (∀ (callee : Value) arguments σ, arity? callee σ = some arguments.length →
      maxDepth ≤ σ.depth →
      ∀ paren n, callee.call (n + 1) paren arguments σ = fail paren .stackOverflow σ) ∧
    ∀ fuel, ∀ σ ∈ (start clock).history fuel steps,
      (∀ id parent, σ.scopes.parent? id = some parent → parent < id) ∧
      ∀ (id : ClassId) c base, σ.classes[id]? = some c → c.superclass = some base → base < id := by
  have hsound := sound_start clock (Visited steps)
  refine ⟨play_halts hfree hsound steps fun _ hstep => hstep, Task.wellFounded_lower, ?_, ?_, ?_⟩
  · intro fuel p hp n
    have hloop : ¬p.1.Loops := not_loops_of_trace hfree clock fuel p hp
    exact Work.lower_of_asked n (Task.descends hloop p.2)
  · intro callee arguments σ harity hdepth paren n
    exact call_overflows harity hdepth paren n
  · intro fuel σ hσ
    have horderly := orderly_history fuel steps (fun _ hstep => hstep) (homely_start clock) hsound
    obtain ⟨-, hheap⟩ := horderly.since σ hσ
    exact ⟨hheap.parents, hheap.superclasses⟩

/-- A function that only calls itself, and an initializer that makes another instance. -/
theorem loop_free_ends_recursion :
    let steps : List Step :=
      [.run (bytes "fun f(){f();}class A{init(){A();}}"), .run (bytes "f();"), .run (bytes "A();")]
    (∀ source, Step.run source ∈ steps → LoopFree source) ∧
    ∃ enough answers after, ∀ fuel ≥ enough, (start []).play fuel steps = .done (answers, after) := by
  intro steps
  have hfree : ∀ source, Step.run source ∈ steps → LoopFree source := by
    intro source hmem
    simp only [steps, List.mem_cons, Step.run.injEq, List.not_mem_nil, or_false] at hmem
    rcases hmem with rfl | rfl | rfl
    all_goals decide +kernel
  exact ⟨hfree, (loop_free_ends [] steps hfree).1⟩

end Session

end Lox
