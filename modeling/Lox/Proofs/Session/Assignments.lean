import Lox.Proofs.Session.Receivers
import Lox.Proofs.Soundness.Names

/-!
# Assignments in a session

An assignment replaces what its name is bound to, or fails where a global is missing. The one way in
which it can bind a name is to stand in the initializer of a local variable, which the end of the
declaration binds anyway. All other names of a session are bound by declarations and calls.
-/

namespace Lox

open Resolution Eval

section Programs

variable {V : Context → Place → Prop}

theorem accounts_runHistory (hwalked : Walked V)
    (hexplained : ∀ {ctx p}, V ctx p → Explained V ctx p) (n : Nat) {ss : List (Stmt Unit)}
    {σ : State} (hvisit : V .top (.stmts ss)) (h : σ.Sound V) (henv : σ.env = State.globals) :
    σ.Accounts (IntroducedBy V (runTrace n (Stmt.resolveAll .top ss) σ))
      (runAll n (Stmt.resolveAll .top ss) σ) (runHistory n (Stmt.resolveAll .top ss) σ) := by
  induction ss generalizing σ with
  | nil => exact ⟨Outcome.leaves_ok.mpr (.refl σ), by simp [Stmt.resolveAll, runHistory]⟩
  | cons s ss ih =>
      obtain ⟨hs, hss, heq⟩ := hwalked.program_cons hvisit
      have hpre := pre_exec_top h hs henv
      have hexec := (soundness_holds hwalked).run n hpre
      have htask := Task.accounts_history hwalked hexplained n hpre trivial
      rw [Task.run] at hexec htask
      have hfirst (later : List (Task × State)) :=
        htask.mono fun id name hintroduced => hintroduced.append_left later
      rw [heq, runAll, runHistory, runTrace]
      cases hrun : (s.resolve .top).exec n σ with
      | ok c σ₁ =>
          rw [hrun] at hexec
          have hlater := (ih hss hexec.1.sound (hexec.1.env.trans henv)).mono
            fun id name hintroduced =>
              hintroduced.append_right (Task.trace n (.exec (s.resolve .top)) σ)
          have hstart := hfirst (runTrace n (Stmt.resolveAll .top ss) σ₁)
          rw [hrun] at hstart
          exact .append hstart.states (hlater.onward (Outcome.leaves_ok.mp hstart.leaves))
      | error e σ₁ =>
          have hstart := hfirst []
          rw [hrun] at hstart
          exact .append hstart.states ⟨hstart.leaves, by simp⟩
      | broken σ₁ =>
          rw [hrun] at hexec
          exact hexec.elim
      | outOfFuel => exact .append (hfirst []).states ⟨Outcome.leaves_outOfFuel, by simp⟩

end Programs

namespace Session

theorem explained_visited {steps : List Step} {ctx : Context} {p : Place}
    (h : Visited steps ctx p) : Explained (Visited steps) ctx p := by
  obtain ⟨source, hmem, haccepted, hvisit⟩ := h
  exact (hvisit.explained haccepted.checked).mono fun ctx p hvisit =>
    ⟨source, hmem, haccepted, hvisit⟩

/-- The names of a step are introduced by the tasks that it comes to. -/
theorem accounts_passed (fuel : Nat) {all : List Step} {session : Session}
    (h : session.state.Sound (Visited all)) {step : Step} (hstep : step ∈ all) :
    ∃ o : Outcome Unit,
      session.state.Accounts (IntroducedBy (Visited all) (session.entered fuel step)) o
        (session.passed fuel step) ∧
      ∀ answer session', session.step fuel step = .done (answer, session') →
        o.state? = some session'.state := by
  rcases runs_or_idle step with ⟨source, rfl, haccepted⟩ | hidle
  · have hrun := accounts_runHistory (walked_visited all) explained_visited fuel
      ⟨source, hstep, haccepted, .start⟩ (entry_sound h) rfl
    have hentry : session.state.Adds (IntroducedBy (Visited all) (runTrace fuel
        (resolve (Reading.ofSource source).program) session.entry)) session.entry :=
      .of_scopes_eq rfl
    rw [passed, entered, if_pos haccepted, if_pos haccepted]
    exact ⟨_, hrun.cons.onward hentry,
      fun answer session' hdone => state?_of_step haccepted hdone⟩
  · rw [passed_of_idle hidle]
    refine ⟨.ok () session.state, ⟨Outcome.leaves_ok.mpr (.refl _), by simp⟩, ?_⟩
    intro answer session' hdone
    exact congrArg some (state_of_idle_step hidle hdone).symm

theorem adds_history (fuel : Nat) {all : List Step} (steps : List Step)
    (hsub : ∀ step ∈ steps, step ∈ all) {session : Session}
    (h : session.state.Sound (Visited all)) :
    ∀ τ ∈ session.history fuel steps,
      session.state.Adds (IntroducedBy (Visited all) (session.trace fuel steps)) τ := by
  induction steps generalizing session with
  | nil => simpa [history] using State.Adds.refl session.state
  | cons step steps ih =>
      rw [List.forall_mem_cons] at hsub
      obtain ⟨o, hfirst, hstate⟩ := accounts_passed fuel h hsub.1
      rw [history, List.forall_mem_cons, List.forall_mem_append, trace]
      refine ⟨.refl _, fun τ hτ => (hfirst.states τ hτ).mono fun id name hintroduced =>
        hintroduced.append_left _, ?_⟩
      cases hdone : session.step fuel step with
      | done result =>
          obtain ⟨answer, session'⟩ := result
          have hlater := ih hsub.2 ((sound_step fuel h hsub.1).2 answer session' hdone)
          intro τ hτ
          refine .trans ((hfirst.leaves _ (hstate answer session' hdone)).mono ?_)
            ((hlater τ hτ).mono ?_)
          · exact fun id name hintroduced => hintroduced.append_left _
          · exact fun id name hintroduced => hintroduced.append_right _
      | broken => simp
      | outOfFuel => simp

/-- Only the clock is bound before a session. -/
theorem bound_start {clock : List Int} {id : ScopeId} {name : Bytes}
    (h : ((start clock).state.scopes.bound? id name).isSome) :
    id = State.globals ∧ name = State.clockName := by
  have hbound := Scopes.empty.bound?_push none [(State.clockName, .clock)] id name
  replace h : ((Scopes.empty.push none [(State.clockName, .clock)]).bound? id name).isSome := h
  rw [hbound] at h
  split at h
  case isTrue hid =>
    rw [List.lookup_cons] at h
    split at h
    case h_1 heq => exact ⟨hid, eq_of_beq heq⟩
    case h_2 => cases h
  case isFalse => simp [Scopes.bound?, Scopes.empty] at h

theorem shaped_of_trace (fuel : Nat) {all : List Step} (steps : List Step)
    (hsub : ∀ step ∈ steps, step ∈ all) {session : Session}
    (h : session.state.Sound (Visited all)) : ∀ p ∈ session.trace fuel steps, p.1.Shaped := by
  refine forall_mem_trace (J := fun _ => True) fuel (fun source session hmem haccepted h _ => ?_)
    (fun _ _ _ _ _ _ _ _ => trivial) steps hsub h trivial
  refine forall_mem_runTrace (I := fun _ => True) (walked_visited all) fuel
    (fun s σ _ _ _ _ => ⟨?_, fun _ _ _ => trivial⟩) ⟨source, hmem, haccepted, .start⟩
    (entry_sound h) rfl trivial
  exact Task.shaped_of_trace fuel trivial

/-! ### Assignments -/

/-- The scope that an assignment targets: so many scopes out, or the globals. -/
def Targets (σ : State) (scope : ScopeId) : Site → Prop
  | some distance => σ.scopes.ancestor? σ.env distance = some scope
  | none => scope = State.globals

/-- An assignment with its value evaluated replaces a binding of the scope that it targets. Without
one it fails and leaves the state as it is, unless it `mayBind` the name there. -/
def Assigns (mayBind : Prop) (σ : State) (name : Token) (site : Site) (value : Expr Site) : Prop :=
  ∃ scope, Targets σ scope site ∧ ∀ n,
    (∀ v σ₁, value.eval n σ = .ok v σ₁ →
      ((σ₁.scopes.bound? scope name.lexeme).isSome ∨ mayBind) ∧
          (Expr.assign name site value).eval (n + 1) σ = .ok v (σ₁.define scope name.lexeme v) ∨
        σ₁.scopes.bound? scope name.lexeme = none ∧ ∃ e : RuntimeError, e.token = name ∧
          e.cause.message = bytes "Undefined variable '" ++ name.lexeme ++ bytes "'." ∧
          (Expr.assign name site value).eval (n + 1) σ = .error e σ₁) ∧
    ∀ e σ₁, value.eval n σ = .error e σ₁ →
      (Expr.assign name site value).eval (n + 1) σ = .error e σ₁

theorem assigns_of_pre {V : Context → Place → Prop} (hwalked : Walked V)
    (hexplained : ∀ {ctx p}, V ctx p → Explained V ctx p) {σ : State} {name : Token} {site : Site}
    {value : Expr Site} (hpre : (soundness V).pre (.eval (.assign name site value)) σ) :
    Assigns (BindsOwn V name site value) σ name site value := by
  obtain ⟨h, ctx, node, hvisit, heq, hmatches⟩ := hpre
  cases node with
  | assign token use node =>
      cases heq
      have hvalue : V ctx (.expr node) :=
        hwalked.next hvisit (by simp [Place.next, Place.operands])
      cases hlocate : ctx.locate name.lexeme with
      | none =>
          refine ⟨State.globals, rfl, fun n => ⟨fun v σ₁ hrun => ?_, fun e σ₁ hrun => ?_⟩⟩
          · have hfollows := follows_of_eval hwalked h hvalue hmatches hrun
            simp only [Expr.eval, hrun, Outcome.bind, assign_global hfollows.sound]
            cases hbound : σ₁.scopes.bound? State.globals name.lexeme with
            | some w => exact .inl ⟨.inl rfl, rfl⟩
            | none => exact .inr ⟨rfl, .undefined name, rfl, rfl, rfl⟩
          · simp only [Expr.eval, hrun, Outcome.bind]
      | some distance =>
          obtain ⟨scope, hscope, hbound⟩ :=
            bound_of_locate hwalked hvisit (hexplained hvisit) hmatches hlocate
          refine ⟨scope, hscope, fun n => ⟨fun v σ₁ hrun => .inl ⟨?_, ?_⟩, fun e σ₁ hrun => ?_⟩⟩
          · have hfollows := follows_of_eval hwalked h hvalue hmatches hrun
            exact hbound.imp (hfollows.grows.scopes.bound _ _) And.right
          · have hfollows := follows_of_eval hwalked h hvalue hmatches hrun
            simp only [Expr.eval, hrun, Outcome.bind]
            exact hfollows.assign_local hmatches hlocate hscope v
          · simp only [Expr.eval, hrun, Outcome.bind]
  | _ => cases heq

/-- In every session, an assignment replaces a binding of the scope that it targets or fails there,
except that in the initializer of a local variable it may bind just that variable. So the names that
a scope has more, between any two states of a run as between the start and any state of a session, are
introduced by declarations, parameters, scopes for `this` and `super`, and such initializers. -/
theorem assigns_declared_names (clock : List Int) (fuel : Nat) (steps : List Step) :
    (∀ name site value σ,
      (.eval (.assign name site value), σ) ∈ (start clock).trace fuel steps →
      Assigns (BindsOwn (Visited steps) name site value) σ name site value) ∧
    (∀ t σ, (t, σ) ∈ (start clock).trace fuel steps → ∀ n, ∀ τ ∈ t.history n σ, ∀ id name,
      (τ.scopes.bound? id name).isSome → (σ.scopes.bound? id name).isSome ∨
        IntroducedBy (Visited steps) (t.trace n σ) id name) ∧
    ∀ τ ∈ (start clock).history fuel steps, ∀ id name, (τ.scopes.bound? id name).isSome →
      id = State.globals ∧ name = State.clockName ∨
        IntroducedBy (Visited steps) ((start clock).trace fuel steps) id name := by
  have hwalked := walked_visited steps
  have hsound := sound_start clock (Visited steps)
  have hpre := pre_of_trace fuel steps (fun _ hstep => hstep) hsound
  refine ⟨?_, ?_, ?_⟩
  · intro name site value σ hmem
    exact assigns_of_pre hwalked explained_visited (hpre _ hmem)
  · intro t σ hmem n τ hτ
    have hshaped := shaped_of_trace fuel steps (fun _ hstep => hstep) hsound _ hmem
    exact (Task.accounts_history hwalked explained_visited n (hpre _ hmem) hshaped).states τ hτ
  · intro τ hτ id name hbound
    have hadds := adds_history fuel steps (fun _ hstep => hstep) hsound τ hτ
    exact (hadds id name hbound).imp_left bound_start

/-- The task assigns a variable of the innermost scope. -/
def assignsHere : Task → Bool
  | .eval (.assign _ (some 0) _) => true
  | _ => false

/-- A name that the second state has more than the first. -/
def newName? (σ τ : State) (name : Bytes) : Option ScopeId :=
  (List.range τ.scopes.next).find? fun id =>
    (τ.scopes.bound? id name).isSome && (σ.scopes.bound? id name).isNone

/-- A parameter is assigned in the call of a function, whose result a later source assigns in the
initializer of the variable itself. -/
theorem assigns_declared_names_parameter :
    let steps : List Step :=
      [.run (bytes "fun f(b){b=1;return b;}"), .run (bytes "{var a=a=f(0);}")]
    (∃ name value σ, (.eval (.assign name (some 0) value), σ) ∈ (start []).trace 14 steps ∧
      Assigns (BindsOwn (Visited steps) name (some 0) value) σ name (some 0) value) ∧
    (∃ t σ τ id, (t, σ) ∈ (start []).trace 14 steps ∧ τ ∈ t.history 14 σ ∧
      newName? σ τ (bytes "b") = some id ∧
      IntroducedBy (Visited steps) (t.trace 14 σ) id (bytes "b")) ∧
    ∃ τ ∈ (start []).history 14 steps, ∃ id, newName? (start []).state τ (bytes "a") = some id ∧
      IntroducedBy (Visited steps) ((start []).trace 14 steps) id (bytes "a") := by
  intro steps
  obtain ⟨hassigns, hgrows, hall⟩ := assigns_declared_names [] 14 steps
  have hnew {σ τ : State} {name : Bytes} {id : ScopeId} (h : newName? σ τ name = some id) :
      (τ.scopes.bound? id name).isSome ∧ ¬(σ.scopes.bound? id name).isSome := by
    simpa using List.find?_some h
  refine ⟨?_, ?_, ?_⟩
  · have htrace : ((start []).trace 14 steps).any (fun p => assignsHere p.1) = true := by
      decide +kernel
    obtain ⟨⟨t, σ⟩, hmem, ht⟩ := List.any_eq_true.mp htrace
    unfold assignsHere at ht
    split at ht
    case h_1 name value heq =>
      cases heq
      exact ⟨name, value, σ, hmem, hassigns name (some 0) value σ hmem⟩
    case h_2 => cases ht
  · have htrace : ((start []).trace 14 steps).any (fun p =>
        (p.1.history 14 p.2).any fun τ => (newName? p.2 τ (bytes "b")).isSome) = true := by
      decide +kernel
    obtain ⟨⟨t, σ⟩, hmem, ht⟩ := List.any_eq_true.mp htrace
    obtain ⟨τ, hτ, hsome⟩ := List.any_eq_true.mp ht
    obtain ⟨id, hid⟩ := Option.isSome_iff_exists.mp hsome
    obtain ⟨hbound, hfree⟩ := hnew hid
    exact ⟨t, σ, τ, id, hmem, hτ, hid,
      (hgrows t σ hmem 14 τ hτ id _ hbound).resolve_left hfree⟩
  · have hhistory : ((start []).history 14 steps).any (fun τ =>
        (newName? (start []).state τ (bytes "a")).isSome) = true := by
      decide +kernel
    obtain ⟨τ, hτ, hsome⟩ := List.any_eq_true.mp hhistory
    obtain ⟨id, hid⟩ := Option.isSome_iff_exists.mp hsome
    refine ⟨τ, hτ, id, hid, (hall τ hτ id _ (hnew hid).1).resolve_left fun hclock => ?_⟩
    exact absurd hclock.2 (by decide)

/-- The task assigns a variable of the innermost scope that this scope lacks. -/
def createsName (n : Nat) : Task × State → Bool
  | (.eval (.assign name (some 0) value), σ) =>
      match value.eval n σ, (Expr.assign name (some 0) value).eval (n + 1) σ with
      | .ok _ σ₁, .ok _ _ => (σ₁.scopes.bound? σ.env name.lexeme).isNone
      | _, _ => false
  | _ => false

/-- Inside of its own initializer a local variable is not bound, and yet it can be assigned there. -/
theorem binds_in_own_initializer :
    let source := bytes "{var a=a=1;print a;}"
    Accepted source ∧
      ∃ name site value σ,
        (.eval (.assign name site value), σ) ∈ (start []).trace 12 [.run source] ∧
        ¬Assigns False σ name site value := by
  intro source
  refine ⟨by decide +kernel, ?_⟩
  have htrace : ((start []).trace 12 [.run source]).any (createsName 12) = true := by
    decide +kernel
  obtain ⟨⟨t, σ⟩, hmem, ht⟩ := List.any_eq_true.mp htrace
  unfold createsName at ht
  split at ht
  case h_1 name value τ heq =>
    cases heq
    split at ht
    case h_1 v σ₁ w σ₂ hvalue hassign =>
      refine ⟨name, some 0, value, σ, hmem, ?_⟩
      rintro ⟨scope, htarget, hends⟩
      obtain rfl : _ = scope := Option.some.inj htarget
      rcases (hends 12).1 v σ₁ hvalue with ⟨hbound | hfalse, -⟩ | ⟨-, e, -, -, herror⟩
      · simp [Option.isNone_iff_eq_none.mp ht] at hbound
      · exact hfalse
      · simp [hassign] at herror
    case h_2 => cases ht
  case h_2 => cases ht

end Session

end Lox
