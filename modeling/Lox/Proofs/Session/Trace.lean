import Lox.Proofs.Parser.Accepts
import Lox.Proofs.Soundness.Statements
import Lox.Proofs.Token.Pieces
import Lox.Session

/-!
# The trace of a session

The tasks that are set off in a session, over all its steps. A source that is accepted is well
formed, so every program of a session runs under the contract of evaluation, and so does whatever
was made by an earlier one.
-/

namespace Lox

open Resolution

theorem Ending.bind_eq_done {α β : Type} {x : Ending α} {f : α → Ending β} {b : β} :
    x.bind f = .done b ↔ ∃ a, x = .done a ∧ f a = .done b := by
  cases x <;> simp [Ending.bind]

theorem Ending.map_eq_done {α β : Type} {x : Ending α} {f : α → β} {b : β} :
    x.map f = .done b ↔ ∃ a, x = .done a ∧ f a = b := by
  cases x <;> simp [Ending.map]

theorem Ending.map_eq_broken {α β : Type} {x : Ending α} {f : α → β} :
    x.map f = .broken ↔ x = .broken := by
  cases x <;> simp [Ending.map]

def Ending.any {α : Type} (test : α → Bool) : Ending α → Bool
  | .done a => test a
  | _ => false

theorem Ending.any_eq_true {α : Type} {x : Ending α} {test : α → Bool} :
    x.any test = true ↔ ∃ a, x = .done a ∧ test a = true := by
  cases x <;> simp [Ending.any]

/-- The source has neither syntactic nor static faults, so it is run. -/
structure Accepted (source : Bytes) : Prop where
  reading : Diagnostic.hasErrors (Reading.ofSource source).diagnostics = false
  static : Diagnostic.hasErrors
    ((staticErrors (Reading.ofSource source).program).map StaticError.diagnostic) = false

instance (source : Bytes) : Decidable (Accepted source) :=
  decidable_of_iff
    (Diagnostic.hasErrors (Reading.ofSource source).diagnostics = false ∧
      Diagnostic.hasErrors
        ((staticErrors (Reading.ofSource source).program).map StaticError.diagnostic) = false)
    ⟨fun h => ⟨h.1, h.2⟩, fun h => ⟨h.1, h.2⟩⟩

theorem eq_nil_of_not_hasErrors {α : Type} {f : α → Diagnostic}
    (hf : ∀ a, (f a).isRuntime = false) {as : List α}
    (h : Diagnostic.hasErrors (as.map f) = false) : as = [] := by
  cases as with
  | nil => rfl
  | cons a as => simp [Diagnostic.hasErrors, hf] at h

namespace Accepted

variable {source : Bytes}

theorem parsed (h : Accepted source) :
    (Scan.source source).errors = [] ∧ (Reading.ofSource source).parsed.errors = [] := by
  have hreading := h.reading
  rw [Reading.diagnostics, Diagnostic.hasErrors, List.any_append, Bool.or_eq_false_iff] at hreading
  exact ⟨eq_nil_of_not_hasErrors (fun _ => rfl) hreading.1,
    eq_nil_of_not_hasErrors (fun _ => rfl) hreading.2⟩

theorem staticErrors_eq_nil (h : Accepted source) :
    staticErrors (Reading.ofSource source).program = [] :=
  eq_nil_of_not_hasErrors (fun _ => rfl) h.static

theorem derives (h : Accepted source) :
    Grammar.NearestProgram (Scan.source source).tokens (Reading.ofSource source).program :=
  (Parsed.derives_of_errors_eq_nil h.parsed.2).2

theorem checked (h : Accepted source) {ctx : Context} {p : Place}
    (hvisit : Visits (Reading.ofSource source).program ctx p) : Place.Checked ctx p :=
  hvisit.checked (h.derives.fine (Scan.spelled_onward 1 source) .top) h.staticErrors_eq_nil

end Accepted

namespace Session

/-- The walk over an accepted source of the session visits the place. -/
def Visited (steps : List Step) (ctx : Context) (p : Place) : Prop :=
  ∃ source, Step.run source ∈ steps ∧ Accepted source ∧
    Visits (Reading.ofSource source).program ctx p

theorem walked_visited (steps : List Step) : Walked (Visited steps) where
  checked := by
    rintro ctx p ⟨source, -, haccepted, hvisit⟩
    exact haccepted.checked hvisit
  next := by
    rintro ctx p ctx' p' ⟨source, hmem, haccepted, hvisit⟩ hnext
    exact ⟨source, hmem, haccepted, hvisit.next hnext⟩

/-- The state in which the program of a source starts. -/
def entry (session : Session) : State :=
  { session.state with printed := [], env := State.globals }

/-- The tasks that a step comes to: only an accepted source is run. -/
def entered (fuel : Nat) (session : Session) : Step → List (Task × State)
  | .run source =>
      if Accepted source then
        runTrace fuel (resolve (Reading.ofSource source).program) session.entry
      else
        []
  | .parse _ => []

theorem entered_run {source : Bytes} (h : Accepted source) (fuel : Nat) (session : Session) :
    session.entered fuel (.run source) =
      runTrace fuel (resolve (Reading.ofSource source).program) session.entry :=
  if_pos h

/-- The tasks that a session comes to, with their states, if each step has the given fuel. -/
def trace (fuel : Nat) (session : Session) : List Step → List (Task × State)
  | [] => []
  | step :: steps =>
      session.entered fuel step ++
        match session.step fuel step with
        | .done (_, session') => session'.trace fuel steps
        | _ => []

end Session

/-! ### Programs under the contract -/

section Programs

variable {T : Task → State → Prop} {V : Reach}

theorem Reach.Closed.program_cons (hclosed : V.Closed T) {s : Stmt Unit} {ss : List (Stmt Unit)}
    (h : V [] .top (.stmts (s :: ss))) :
    V [] .top (.stmt s) ∧ V [] .top (.stmts ss) ∧
      Stmt.resolveAll .top (s :: ss) = s.resolve .top :: Stmt.resolveAll .top ss := by
  have hs : V [] .top (.stmt s) := hclosed.within h (by simp [Place.within, Place.next])
  have hss : V [] (Context.top.after s) (.stmts ss) :=
    hclosed.within h (by simp [Place.within, Place.next])
  rw [after_top] at hss
  rw [Stmt.resolveAll, after_top]
  exact ⟨hs, hss, rfl⟩

theorem pre_exec_top {s : Stmt Unit} {σ : State} (h : σ.Sound V) (hs : V [] .top (.stmt s))
    (henv : σ.env = State.globals) : (soundness V).pre (.exec (s.resolve .top)) σ :=
  ⟨h, Context.top, s, hs, rfl, henv⟩

/-- A program keeps the contract, and so do the tasks that it comes to. -/
theorem Reach.Closed.meets_program (hclosed : V.Closed T) (n : Nat) {ss : List (Stmt Unit)}
    {σ : State} (hvisit : V [] .top (.stmts ss)) (h : σ.Sound V) (henv : σ.env = State.globals)
    (hamong : ∀ p ∈ runTrace n (Stmt.resolveAll .top ss) σ, T p.1 p.2) :
    (runAll n (Stmt.resolveAll .top ss) σ).Meets (fun _ σ' => Follows V σ σ')
        (fun _ σ' => Follows V σ σ') ∧
      ∀ p ∈ runTrace n (Stmt.resolveAll .top ss) σ, (soundness V).pre p.1 p.2 := by
  induction ss generalizing σ with
  | nil => exact ⟨h.follows, by simp [Stmt.resolveAll, runTrace]⟩
  | cons s ss ih =>
      obtain ⟨hs, hss, heq⟩ := hclosed.program_cons hvisit
      rw [heq, runTrace, List.forall_mem_append] at hamong
      have hpre := pre_exec_top h hs henv
      have hexec := hclosed.holdsAmong.run n hamong.1 hpre
      have htrace := hclosed.holdsAmong.trace n hamong.1 hpre
      rw [Task.run] at hexec
      rw [heq, runAll, runTrace, List.forall_mem_append]
      cases hrun : (s.resolve .top).exec n σ with
      | ok c σ₁ =>
          rw [hrun] at hexec hamong
          obtain ⟨hσ₁, -⟩ := hexec
          obtain ⟨hrest, hlater⟩ := ih hss hσ₁.sound (hσ₁.env.trans henv) hamong.2
          exact ⟨hrest.mono (fun _ _ h => hσ₁.trans h) fun _ _ h => hσ₁.trans h, htrace, hlater⟩
      | error e σ₁ =>
          rw [hrun] at hexec
          exact ⟨hexec, htrace, by simp⟩
      | broken σ₁ =>
          rw [hrun] at hexec
          exact hexec.elim
      | outOfFuel => exact ⟨trivial, htrace, by simp⟩

end Programs

section Visits

variable {V : Context → Place → Prop}

theorem Walked.program_cons (hwalked : Walked V) {s : Stmt Unit} {ss : List (Stmt Unit)}
    (h : V .top (.stmts (s :: ss))) :
    V .top (.stmt s) ∧ V .top (.stmts ss) ∧
      Stmt.resolveAll .top (s :: ss) = s.resolve .top :: Stmt.resolveAll .top ss :=
  (hwalked.closed fun _ _ => True).program_cons h

/-- What holds of the tasks of each statement, in states that keep an invariant, holds of those of
the program. -/
theorem forall_mem_runTrace (hwalked : Walked V) (n : Nat) {I : State → Prop}
    {P : Task × State → Prop}
    (hexec : ∀ s σ, V .top (.stmt s) → σ.Sound V → σ.env = State.globals → I σ →
      (∀ p ∈ Task.trace n (.exec (s.resolve .top)) σ, P p) ∧
        ∀ c σ', (s.resolve .top).exec n σ = .ok c σ' → I σ')
    {ss : List (Stmt Unit)} {σ : State} (hvisit : V .top (.stmts ss)) (h : σ.Sound V)
    (henv : σ.env = State.globals) (hI : I σ) :
    ∀ p ∈ runTrace n (Stmt.resolveAll .top ss) σ, P p := by
  induction ss generalizing σ with
  | nil => simp [Stmt.resolveAll, runTrace]
  | cons s ss ih =>
      obtain ⟨hs, hss, heq⟩ := hwalked.program_cons hvisit
      obtain ⟨htrace, hkeeps⟩ := hexec s σ hs h henv hI
      have hend := (soundness_holds hwalked).run n (pre_exec_top h hs henv)
      rw [heq, runTrace, List.forall_mem_append]
      refine ⟨htrace, ?_⟩
      rw [Task.run] at hend
      cases hrun : (s.resolve .top).exec n σ with
      | ok c σ₁ =>
          rw [hrun] at hend
          exact ih hss hend.1.sound (hend.1.env.trans henv) (hkeeps c σ₁ hrun)
      | error e σ₁ => simp
      | broken σ₁ => simp
      | outOfFuel => simp

end Visits

/-! ### Sessions under the contract -/

namespace Session

def checkEvents (source : Bytes) : List Event :=
  (Reading.ofSource source).events ++
    [.resolved (localUses (resolve (Reading.ofSource source).program))
      ((staticErrors (Reading.ofSource source).program).map StaticError.diagnostic).length]

theorem run_of_accepted {source : Bytes} (h : Accepted source) (fuel : Nat) (session : Session) :
    session.run fuel source =
      (Execution.ofOutcome (runAll fuel (resolve (Reading.ofSource source).program)
        session.entry)).bind (settle (checkEvents source)) := by
  rw [run]
  simp only [h.reading, h.static, Bool.false_eq_true, ↓reduceIte]
  rfl

/-- A source that is not accepted is refused, and the session stays as it is. -/
theorem run_of_not_accepted {source : Bytes} (h : ¬Accepted source) :
    ∃ diagnostics events, ∀ (fuel : Nat) (session : Session),
      session.run fuel source = .done (refused diagnostics events, session) := by
  by_cases hreading : Diagnostic.hasErrors (Reading.ofSource source).diagnostics = true
  · exact ⟨_, _, fun fuel session => if_pos hreading⟩
  · by_cases hstatic : Diagnostic.hasErrors
        ((staticErrors (Reading.ofSource source).program).map StaticError.diagnostic) = true
    · exact ⟨_, _, fun fuel session => (if_neg hreading).trans (if_pos hstatic)⟩
    · exact absurd ⟨Bool.eq_false_iff.mpr hreading, Bool.eq_false_iff.mpr hstatic⟩ h

/-- What a run has come to once it is done: the source was refused, or its program went to its end, or
it stopped at an error. -/
inductive Finishes (fuel : Nat) (session : Session) (source : Bytes) : Report → Session → Prop
  | refused (haccepted : ¬Accepted source) (diagnostics : List Diagnostic) (events : List Event) :
      Finishes fuel session source (Session.refused diagnostics events) session
  | ended (haccepted : Accepted source) {σ : State}
      (hend : runAll fuel (resolve (Reading.ofSource source).program) session.entry = .ok () σ) :
      Finishes fuel session source
        ⟨.ok, Execution.printed ⟨none, σ⟩, [], checkEvents source ++ [.executed]⟩ ⟨σ⟩
  | stopped (haccepted : Accepted source) {e : RuntimeError} {σ : State}
      (hend : runAll fuel (resolve (Reading.ofSource source).program) session.entry = .error e σ) :
      Finishes fuel session source
        ⟨.runtimeError, Execution.printed ⟨some (.error e), σ⟩, [e.diagnostic],
          checkEvents source ++ [.stopped e.token.line]⟩ ⟨σ⟩

theorem finishes_of_run {fuel : Nat} {session after : Session} {source : Bytes} {report : Report}
    (h : session.run fuel source = .done (report, after)) :
    Finishes fuel session source report after := by
  by_cases haccepted : Accepted source
  · rw [run_of_accepted haccepted] at h
    cases hend : runAll fuel (resolve (Reading.ofSource source).program) session.entry with
    | ok u σ =>
        rw [hend] at h
        cases h
        exact .ended haccepted hend
    | error e σ =>
        rw [hend] at h
        cases h
        exact .stopped haccepted hend
    | broken σ =>
        rw [hend] at h
        cases h
    | outOfFuel =>
        rw [hend] at h
        cases h
  · obtain ⟨diagnostics, events, hrun⟩ := run_of_not_accepted haccepted
    rw [hrun] at h
    cases h
    exact .refused haccepted diagnostics events

theorem finishes_of_step {fuel : Nat} {session after : Session} {source : Bytes} {answer : Answer}
    (h : session.step fuel (.run source) = .done (answer, after)) :
    ∃ report, answer = .ran report ∧ Finishes fuel session source report after := by
  obtain ⟨⟨report, next⟩, hrun, heq⟩ := Ending.map_eq_done.mp h
  cases heq
  exact ⟨report, rfl, finishes_of_run hrun⟩

/-- Only the program of an accepted source can break. -/
theorem broken_of_run {fuel : Nat} {session : Session} {source : Bytes}
    (h : session.run fuel source = .broken) :
    Accepted source ∧ ∃ σ,
      runAll fuel (resolve (Reading.ofSource source).program) session.entry = .broken σ := by
  by_cases haccepted : Accepted source
  · rw [run_of_accepted haccepted] at h
    cases hend : runAll fuel (resolve (Reading.ofSource source).program) session.entry with
    | broken σ => exact ⟨haccepted, σ, rfl⟩
    | _ =>
        rw [hend] at h
        cases h
  · obtain ⟨diagnostics, events, hrun⟩ := run_of_not_accepted haccepted
    rw [hrun] at h
    cases h

theorem entry_sound {V : Reach} {session : Session} (h : session.state.Sound V) :
    session.entry.Sound V :=
  (h.withPrinted []).withEnv _

/-- Places that are reached in a session: the programs of its accepted sources, and what tasks among
`T` come to from there. -/
structure Hosts (steps : List Step) (V : Reach) (T : Task → State → Prop) : Prop
    extends V.Closed T where
  start : ∀ {source}, Step.run source ∈ steps → Accepted source →
    V [] .top (.stmts (Reading.ofSource source).program)

theorem hosts_visited (steps : List Step) : Hosts steps (Visited steps) fun _ _ => True where
  toClosed := (walked_visited steps).closed _
  start hmem haccepted := ⟨_, hmem, haccepted, .start⟩

theorem Hosts.sound_step {steps : List Step} {V : Reach} {T : Task → State → Prop}
    (hhosts : Hosts steps V T) (fuel : Nat) {session : Session} (h : session.state.Sound V)
    {step : Step} (hstep : step ∈ steps)
    (hamong : ∀ p ∈ session.entered fuel step, T p.1 p.2) :
    session.step fuel step ≠ .broken ∧
      ∀ answer session', session.step fuel step = .done (answer, session') →
        session'.state.Sound V := by
  cases step with
  | parse source =>
      constructor
      · intro hbroken
        cases hbroken
      · intro answer session' hdone
        cases hdone
        exact h
  | run source =>
      have hmeets (haccepted : Accepted source) :=
        (hhosts.meets_program fuel (hhosts.start hstep haccepted) (entry_sound h) rfl
          (entered_run haccepted fuel session ▸ hamong)).1
      constructor
      · intro hbroken
        obtain ⟨haccepted, σ, hend⟩ := broken_of_run (Ending.map_eq_broken.mp hbroken)
        have hnever := hmeets haccepted
        rw [resolve] at hend
        rw [hend] at hnever
        exact hnever
      · intro answer session' hdone
        obtain ⟨report, -, hfinishes⟩ := finishes_of_step hdone
        cases hfinishes with
        | refused => exact h
        | ended haccepted hend =>
            have hfollows := hmeets haccepted
            rw [resolve] at hend
            rw [hend] at hfollows
            exact hfollows.sound
        | stopped haccepted hend =>
            have hfollows := hmeets haccepted
            rw [resolve] at hend
            rw [hend] at hfollows
            exact hfollows.sound

theorem sound_step (fuel : Nat) {steps : List Step} {session : Session}
    (h : session.state.Sound (Visited steps)) {step : Step} (hstep : step ∈ steps) :
    session.step fuel step ≠ .broken ∧
      ∀ answer session', session.step fuel step = .done (answer, session') →
        session'.state.Sound (Visited steps) :=
  (hosts_visited steps).sound_step fuel h hstep fun _ _ => trivial

theorem sound_start (clock : List Int) (V : Reach) :
    (start clock).state.Sound V where
  outermost := rfl
  nonempty := Nat.one_pos
  bound id name v hv := by
    have hbound := Scopes.empty.bound?_push none [(State.clockName, .clock)] id name
    replace hbound := hbound.symm.trans hv
    split at hbound
    · rw [List.lookup_cons] at hbound
      split at hbound
      case h_1 heq =>
        cases hbound
        rw [eq_of_beq heq]
        exact ⟨trivial, Plain.admits ⟨by decide, by decide⟩ _⟩
      case h_2 => cases hbound
    · simp [Scopes.bound?, Scopes.empty] at hbound
  functions f hf := by simp [start, State.initial] at hf
  classes c hc := by simp [start, State.initial] at hc
  objects o ho := by simp [start, State.initial] at ho

/-- A session that is done has taken its first step and then the others. -/
theorem play_cons {fuel : Nat} {session after : Session} {step : Step} {steps : List Step}
    {answers : List Answer} (h : session.play fuel (step :: steps) = .done (answers, after)) :
    ∃ answer next others, session.step fuel step = .done (answer, next) ∧
      next.play fuel steps = .done (others, after) ∧ answers = answer :: others := by
  rw [play] at h
  obtain ⟨⟨answer, next⟩, hstep, hrest⟩ := Ending.bind_eq_done.mp h
  obtain ⟨⟨others, last⟩, hothers, heq⟩ := Ending.map_eq_done.mp hrest
  cases heq
  exact ⟨answer, next, others, hstep, hothers, rfl⟩

theorem play_ne_broken (fuel : Nat) {all : List Step} (steps : List Step)
    (hsub : ∀ step ∈ steps, step ∈ all) {session : Session}
    (h : session.state.Sound (Visited all)) : session.play fuel steps ≠ .broken := by
  induction steps generalizing session with
  | nil => exact nofun
  | cons step steps ih =>
      rw [List.forall_mem_cons] at hsub
      obtain ⟨hbroken, hsound⟩ := sound_step fuel h hsub.1
      rw [play]
      cases hstep : session.step fuel step with
      | done result =>
          obtain ⟨answer, session'⟩ := result
          have hrest := ih hsub.2 (hsound answer session' hstep)
          cases hplay : session'.play fuel steps with
          | done result => simp [Ending.bind, hplay, Ending.map]
          | broken => exact absurd hplay hrest
          | outOfFuel => simp [Ending.bind, hplay, Ending.map]
      | broken => exact absurd hstep hbroken
      | outOfFuel => exact nofun

theorem sound_play (fuel : Nat) {all : List Step} (steps : List Step)
    (hsub : ∀ step ∈ steps, step ∈ all) {session after : Session} {answers : List Answer}
    (h : session.state.Sound (Visited all))
    (hplay : session.play fuel steps = .done (answers, after)) :
    after.state.Sound (Visited all) := by
  induction steps generalizing session answers with
  | nil =>
      cases hplay
      exact h
  | cons step steps ih =>
      rw [List.forall_mem_cons] at hsub
      obtain ⟨answer, next, others, hstep, hothers, rfl⟩ := play_cons hplay
      exact ih hsub.2 ((sound_step fuel h hsub.1).2 answer next hstep) hothers

/-- What holds of the tasks of each accepted source, in sessions that keep an invariant, holds of
those of a whole session. -/
theorem forall_mem_trace (fuel : Nat) {all : List Step} {J : Session → Prop}
    {P : Task × State → Prop}
    (hrun : ∀ source session, .run source ∈ all → Accepted source →
      session.state.Sound (Visited all) → J session →
      ∀ p ∈ runTrace fuel (resolve (Reading.ofSource source).program) session.entry, P p)
    (hkeeps : ∀ step session answer session', step ∈ all → session.state.Sound (Visited all) →
      J session → session.step fuel step = .done (answer, session') → J session')
    (steps : List Step) (hsub : ∀ step ∈ steps, step ∈ all) {session : Session}
    (h : session.state.Sound (Visited all)) (hJ : J session) :
    ∀ p ∈ session.trace fuel steps, P p := by
  induction steps generalizing session with
  | nil => simp [trace]
  | cons step steps ih =>
      rw [List.forall_mem_cons] at hsub
      rw [trace, List.forall_mem_append]
      constructor
      · cases step with
        | parse source => simp [entered]
        | run source =>
            rw [entered]
            split
            case isTrue haccepted => exact hrun source session hsub.1 haccepted h hJ
            case isFalse => simp
      · cases hstep : session.step fuel step with
        | done result =>
            obtain ⟨answer, session'⟩ := result
            exact ih hsub.2 ((sound_step fuel h hsub.1).2 answer session' hstep)
              (hkeeps step session answer session' hsub.1 h hJ hstep)
        | broken => simp
        | outOfFuel => simp

/-- Every task that a session comes to is set off as the contract demands. -/
theorem Hosts.pre_of_trace {all : List Step} {V : Reach} {T : Task → State → Prop}
    (hhosts : Hosts all V T) (fuel : Nat) (steps : List Step) (hsub : ∀ step ∈ steps, step ∈ all)
    {session : Session} (h : session.state.Sound V)
    (hamong : ∀ p ∈ session.trace fuel steps, T p.1 p.2) :
    ∀ p ∈ session.trace fuel steps, (soundness V).pre p.1 p.2 := by
  induction steps generalizing session with
  | nil => simp [trace]
  | cons step steps ih =>
      rw [List.forall_mem_cons] at hsub
      rw [trace, List.forall_mem_append] at hamong ⊢
      constructor
      · cases step with
        | parse source => simp [entered]
        | run source =>
            by_cases haccepted : Accepted source
            · rw [entered_run haccepted] at hamong ⊢
              exact (hhosts.meets_program fuel (hhosts.start hsub.1 haccepted) (entry_sound h) rfl
                hamong.1).2
            · simp [entered, haccepted]
      · cases hstep : session.step fuel step with
        | done result =>
            obtain ⟨answer, session'⟩ := result
            rw [hstep] at hamong
            exact ih hsub.2 ((hhosts.sound_step fuel h hsub.1 hamong.1).2 answer session' hstep)
              hamong.2
        | broken => simp
        | outOfFuel => simp

theorem pre_of_trace (fuel : Nat) {all : List Step} (steps : List Step)
    (hsub : ∀ step ∈ steps, step ∈ all) {session : Session}
    (h : session.state.Sound (Visited all)) :
    ∀ p ∈ session.trace fuel steps, (soundness (Visited all)).pre p.1 p.2 :=
  (hosts_visited all).pre_of_trace fuel steps hsub h fun _ _ => trivial

end Session

end Lox
