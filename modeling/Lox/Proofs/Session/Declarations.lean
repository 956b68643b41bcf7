import Lox.Proofs.Eval.Leaves
import Lox.Proofs.Session.Trace

/-!
# Declarations that fail

A variable is bound after its initializer has been evaluated, so a failed `var` leaves just what the
evaluation leaves. A class is bound to `nil` before its superclass is read: if that name is undefined
or no class, the class statement stops behind its own binding. The runs that follow start there.
-/

namespace Lox

open Resolution Eval

variable {V : Context → Place → Prop}

/-! ### Names are read past the binding of another -/

theorem Scopes.ancestor?_define (scopes : Scopes) (id : ScopeId) (name : Bytes) (value : Value)
    (start : ScopeId) (d : Nat) :
    (scopes.define id name value).ancestor? start d = scopes.ancestor? start d := by
  have hclimb (place : Option ScopeId) :
      (scopes.define id name value).climb d place = scopes.climb d place := by
    induction d generalizing place with
    | zero => rfl
    | succ d ih =>
        cases place with
        | none => rfl
        | some scope => rw [climb, climb, parent?_define, ih]
  rw [ancestor?, ancestor?, hclimb]

theorem read_define {σ : State} (h : σ.Sound V) {name : Bytes} (hname : Plain name) {v : Value}
    (hv : v.Valid σ) (id : ScopeId) {use : Token} (hne : use.lexeme ≠ name) (site : Site) :
    read use site (σ.define id name v) = (read use site σ).leaving fun σ' => σ'.define id name v := by
  have hbound (scope : ScopeId) : (σ.define id name v).scopes.bound? scope use.lexeme =
      σ.scopes.bound? scope use.lexeme := by
    rw [State.define, Scopes.bound?_define, if_neg fun hcase => hne hcase.2.1]
  cases site with
  | none =>
      rw [read_global h, read_global (h.define id hv (hname.admits v)), hbound]
      cases σ.scopes.bound? State.globals use.lexeme <;> rfl
  | some distance =>
      have hancestor : (σ.define id name v).scopes.ancestor? σ.env distance =
          σ.scopes.ancestor? σ.env distance :=
        σ.scopes.ancestor?_define id name v σ.env distance
      have henv : (σ.define id name v).env = σ.env := rfl
      simp only [Eval.read, Scopes.getAt?, henv, hancestor]
      cases σ.scopes.ancestor? σ.env distance with
      | none => rfl
      | some scope => simp only [hbound, Outcome.leaving]

/-! ### How declarations fail -/

/-- The statement binds a name in the innermost scope. -/
def Stmt.declares : Stmt Site → Bool
  | .var _ _ | .function _ | .class _ _ _ => true
  | _ => false

/-- How a declaration fails, told from the evaluation on its own of what it evaluates. -/
inductive FailsAs (σ : State) : Nat → Stmt Site → RuntimeError → State → Prop where
  /-- The initializer fails, and what it leaves is left. -/
  | initializer {n : Nat} {name : Token} {init : Expr Site} {e : RuntimeError} {σ' : State}
      (hinit : init.eval n σ = .error e σ') : FailsAs σ n (.var name (some init)) e σ'
  /-- The superclass is undefined. -/
  | unread {n : Nat} {name base : Token} {site : Site} {methods : List (FunctionDecl Site)}
      {e : RuntimeError} (hbase : ∀ m, (Expr.read base site).eval (m + 1) σ = .error e σ) :
      FailsAs σ n (.class name (some (base, site)) methods) e (σ.define σ.env name.lexeme .nil)
  /-- The superclass is no class. -/
  | notClass {n : Nat} {name base : Token} {site : Site} {methods : List (FunctionDecl Site)}
      {v : Value} (hbase : ∀ m, (Expr.read base site).eval (m + 1) σ = .ok v σ)
      (hv : ∀ id, v ≠ .class id) :
      FailsAs σ n (.class name (some (base, site)) methods) ⟨base, .superclassNotClass⟩
        (σ.define σ.env name.lexeme .nil)

theorem eval_read {base : Token} {site : Site} {σ : State} {o : Outcome Value}
    (h : read base site σ = o) (m : Nat) : (Expr.read base site).eval (m + 1) σ = o := by
  rw [Expr.eval]
  exact h

/-- The superclass of a class statement reads on its own as it does behind the binding. -/
theorem read_superclass (hwalked : Walked V) {σ : State} {name base : Token} {site : Site}
    {methods : List (FunctionDecl Site)}
    (hpre : (soundness V).pre (.exec (.class name (some (base, site)) methods)) σ) :
    read base site (σ.define σ.env name.lexeme .nil) =
      (read base site σ).leaving fun σ' => σ'.define σ.env name.lexeme .nil := by
  obtain ⟨h, ctx, node, hvisit, heq, -⟩ := hpre
  cases node with
  | «class» token superclass ds =>
      cases superclass with
      | none => cases heq
      | some use =>
          cases heq
          have hchecked := hwalked.checked hvisit
          have hfaults := hchecked.faultless
          simp only [Place.faults, Stmt.faults, superclassFaults, List.append_eq_nil_iff,
            ite_eq_right_iff, List.cons_ne_nil, imp_false] at hfaults
          have hnil : Value.Valid σ .nil := trivial
          exact read_define h hchecked.wellFormed.fine hnil σ.env hfaults.1.2.1 _
  | _ => cases heq

/-- Behind the binding of its name, a class statement that fails has failed at its superclass. -/
theorem failsAs_of_classWork (hwalked : Walked V) {σ : State} {name : Token}
    {superclass : Option (Token × Site)} {methods : List (FunctionDecl Site)}
    (hpre : (soundness V).pre (.exec (.class name superclass methods)) σ) {n : Nat}
    {e : RuntimeError} {σ' : State}
    (hrun : Task.classWork name superclass methods (σ.define σ.env name.lexeme .nil) = .error e σ') :
    FailsAs σ n (.class name superclass methods) e σ' := by
  have hbound : ((σ.define σ.env name.lexeme .nil).scopes.bound? σ.env name.lexeme).isSome := by
    obtain ⟨h, ctx, node, -, -, hmatches⟩ := id hpre
    exact σ.scopes.isSome_bound?_define (hmatches.lt_next h.nonempty) _ _
  have hends := classEnds hbound (soundness_holds hwalked _ _ hpre)
  rw [hrun] at hends
  obtain ⟨rfl, ⟨base, site⟩, rfl, hread⟩ := hends.error_cases
  have hleaves := leaves_read (σ := σ) base site
  simp only [read_superclass hwalked hpre] at hread
  cases halone : read base site σ with
  | ok v τ =>
      rw [halone] at hread hleaves
      obtain rfl := Outcome.leaves_ok.mp hleaves
      obtain hread | ⟨w, hread, hv, rfl⟩ := hread
      · cases hread
      · cases hread
        exact .notClass (eval_read halone) hv
  | error e' τ =>
      rw [halone] at hread hleaves
      obtain rfl := Outcome.leaves_error.mp hleaves
      obtain hread | ⟨w, hread, -⟩ := hread
      · cases hread
        exact .unread (eval_read halone)
      · cases hread
  | broken τ =>
      rw [halone] at hread
      obtain hread | ⟨w, hread, -⟩ := hread <;> cases hread
  | outOfFuel =>
      rw [halone] at hread
      obtain hread | ⟨w, hread, -⟩ := hread <;> cases hread

theorem classWork_of_failsAs (hwalked : Walked V) {σ : State} {name : Token}
    {superclass : Option (Token × Site)} {methods : List (FunctionDecl Site)}
    (hpre : (soundness V).pre (.exec (.class name superclass methods)) σ) {n : Nat}
    {e : RuntimeError} {σ' : State} (hfails : FailsAs σ n (.class name superclass methods) e σ') :
    Task.classWork name superclass methods (σ.define σ.env name.lexeme .nil) = .error e σ' := by
  cases hfails with
  | unread hbase =>
      have halone := hbase 0
      rw [Expr.eval] at halone
      simp only [Task.classWork, read_superclass hwalked hpre, halone, Outcome.leaving, Outcome.bind]
  | notClass hbase hv =>
      have halone := hbase 0
      rw [Expr.eval] at halone
      simp only [Task.classWork, read_superclass hwalked hpre, halone, Outcome.leaving, Outcome.bind]
      rfl

theorem exec_class_error_iff (hwalked : Walked V) {σ : State} {name : Token}
    {superclass : Option (Token × Site)} {methods : List (FunctionDecl Site)}
    (hpre : (soundness V).pre (.exec (.class name superclass methods)) σ) {n : Nat}
    {e : RuntimeError} {σ' : State} :
    (Stmt.class name superclass methods).exec (n + 1) σ = .error e σ' ↔
      FailsAs σ n (.class name superclass methods) e σ' := by
  have hexec : (Stmt.class name superclass methods).exec (n + 1) σ =
      Task.classWork name superclass methods (σ.define σ.env name.lexeme .nil) :=
    Task.run_exec n _ σ
  rw [hexec]
  exact ⟨failsAs_of_classWork hwalked hpre, classWork_of_failsAs hwalked hpre⟩

theorem exec_error_iff (hwalked : Walked V) {σ : State} {s : Stmt Site} (hs : s.declares = true)
    (hpre : (soundness V).pre (.exec s) σ) {n : Nat} {e : RuntimeError} {σ' : State} :
    s.exec (n + 1) σ = .error e σ' ↔ FailsAs σ n s e σ' := by
  cases s with
  | «class» name superclass methods => exact exec_class_error_iff hwalked hpre
  | function decl =>
      constructor
      · intro hrun
        cases hrun
      · intro hfails
        cases hfails
  | var name init =>
      cases init with
      | none =>
          constructor
          · intro hrun
            cases hrun
          · intro hfails
            cases hfails
      | some e =>
          constructor
          · intro hrun
            rw [Stmt.exec] at hrun
            obtain hinit | ⟨v, σ₁, -, hrun⟩ := Outcome.bind_eq_error.mp hrun
            · exact .initializer hinit
            · cases hrun
          · intro hfails
            cases hfails with
            | initializer hinit =>
                rw [Stmt.exec]
                exact Outcome.bind_eq_error.mpr (.inl hinit)
  | _ => cases hs

/-! ### Runs that a failed statement ends -/

theorem exists_exec_of_runAll (hwalked : Walked V) (n : Nat) {ss : List (Stmt Unit)} {σ : State}
    (hvisit : V .top (.stmts ss)) (h : σ.Sound V) (henv : σ.env = State.globals)
    {e : RuntimeError} {σ' : State} (hrun : runAll n (Stmt.resolveAll .top ss) σ = .error e σ') :
    ∃ s τ, (.exec s, τ) ∈ runTrace n (Stmt.resolveAll .top ss) σ ∧ τ.env = State.globals ∧
      s.exec n τ = .error e σ' := by
  induction ss generalizing σ with
  | nil => cases hrun
  | cons s ss ih =>
      obtain ⟨hs, hss, heq⟩ := hwalked.program_cons hvisit
      rw [heq, runAll] at hrun
      rw [heq, runTrace]
      obtain hfails | ⟨c, σ₁, hexec, hrest⟩ := Outcome.bind_eq_error.mp hrun
      · refine ⟨s.resolve .top, σ, List.mem_append_left _ ?_, henv, hfails⟩
        cases n <;> simp [Task.trace]
      · have hend := (soundness_holds hwalked).run n (pre_exec_top h hs henv)
        rw [Task.run, hexec] at hend
        obtain ⟨s', τ, hmem, hτ, hfails⟩ :=
          ih hss hend.1.sound (hend.1.env.trans henv) hrest
        rw [hexec]
        exact ⟨s', τ, List.mem_append_right _ hmem, hτ, hfails⟩

namespace Session

/-- The tasks of a step belong to those of the session. -/
theorem entered_subset_trace (fuel : Nat) {session reached : Session} {before : List Step}
    {answers : List Answer} (hplay : session.play fuel before = .done (answers, reached))
    (step : Step) (after : List Step) :
    ∀ p ∈ reached.entered fuel step, p ∈ session.trace fuel (before ++ step :: after) := by
  induction before generalizing session answers with
  | nil =>
      cases hplay
      intro p hp
      rw [List.nil_append, trace]
      exact List.mem_append_left _ hp
  | cons first before ih =>
      obtain ⟨answer, next, others, hstep, hothers, rfl⟩ := play_cons hplay
      intro p hp
      rw [List.cons_append, trace, hstep]
      exact List.mem_append_right _ (ih hothers p hp)

theorem exists_exec_of_run {fuel : Nat} {all : List Step} {session session' : Session}
    (h : session.state.Sound (Visited all)) {source : Bytes} (hsource : .run source ∈ all)
    {report : Report} (hrun : session.run fuel source = .done (report, session'))
    (hstatus : report.status = .runtimeError) :
    ∃ s τ e, (.exec s, τ) ∈ session.entered fuel (.run source) ∧ τ.env = State.globals ∧
      s.exec fuel τ = .error e session'.state := by
  cases finishes_of_run hrun with
  | refused => cases hstatus
  | ended => cases hstatus
  | @stopped haccepted e _ hend =>
      obtain ⟨s, τ, hmem, hτ, hfails⟩ := exists_exec_of_runAll (walked_visited all) fuel
        ⟨source, hsource, haccepted, .start⟩ (entry_sound h) rfl hend
      refine ⟨s, τ, e, ?_, hτ, hfails⟩
      rwa [entered, if_pos haccepted]

/-- In every session, a declaration that fails leaves what the evaluation on its own of its initializer
or superclass leaves, but a class has its name bound to `nil` by then. A run that ends in a runtime
error hands on the state that its failed statement has left. -/
theorem failed_declaration_leaves (clock : List Int) (fuel : Nat) (steps : List Step) :
    (∀ s σ, (.exec s, σ) ∈ (start clock).trace fuel steps → s.declares = true →
      ∀ n e σ', s.exec (n + 1) σ = .error e σ' ↔ FailsAs σ n s e σ') ∧
    ∀ before source after, steps = before ++ .run source :: after →
      ∀ answers session, (start clock).play fuel before = .done (answers, session) →
        ∀ report session', session.run fuel source = .done (report, session') →
          report.status = .runtimeError →
          ∃ s σ e, (.exec s, σ) ∈ (start clock).trace fuel steps ∧ σ.env = State.globals ∧
            s.exec fuel σ = .error e session'.state := by
  have hsound := sound_start clock (Visited steps)
  refine ⟨?_, ?_⟩
  · intro s σ hmem hs n e σ'
    have hpre := pre_of_trace fuel steps (fun _ hstep => hstep) hsound _ hmem
    exact exec_error_iff (walked_visited steps) hs hpre
  · intro before source after hsteps answers session hplay report session' hrun hstatus
    have hbefore (step : Step) (hstep : step ∈ before) : step ∈ steps := by
      rw [hsteps]
      exact List.mem_append_left _ hstep
    have hreached := sound_play fuel before hbefore hsound hplay
    obtain ⟨s, τ, e, hmem, henv, hfails⟩ := exists_exec_of_run hreached
      (hsteps ▸ List.mem_append_right _ List.mem_cons_self) hrun hstatus
    refine ⟨s, τ, e, ?_, henv, hfails⟩
    rw [hsteps]
    exact entered_subset_trace fuel hplay _ after _ hmem

/-- The task is a declaration that fails. -/
def failsToDeclare (n : Nat) : Task × State → Bool
  | (.exec s, σ) =>
      s.declares &&
        match s.exec n σ with
        | .error _ _ => true
        | _ => false
  | _ => false

/-- A global is declared anew with an initializer that fails behind a change of another global. -/
theorem failed_declaration_leaves_effects :
    let before : List Step := [.run (bytes "var a=1;var b=1;fun f(){b=2;return c;}")]
    let source := bytes "var a=f();"
    let steps : List Step := before ++ [.run source]
    (∃ s σ e σ', (.exec s, σ) ∈ (start []).trace 20 steps ∧ s.declares = true ∧
      s.exec 20 σ = .error e σ' ∧ FailsAs σ 19 s e σ') ∧
    ∃ answers session report session', (start []).play 20 before = .done (answers, session) ∧
      session.run 20 source = .done (report, session') ∧ report.status = .runtimeError ∧
      ∃ s σ e, (.exec s, σ) ∈ (start []).trace 20 steps ∧ σ.env = State.globals ∧
        s.exec 20 σ = .error e session'.state := by
  intro before source steps
  obtain ⟨hfails, hends⟩ := failed_declaration_leaves [] 20 steps
  constructor
  · have htrace : ((start []).trace 20 steps).any (failsToDeclare 20) = true := by decide +kernel
    obtain ⟨⟨t, σ⟩, hmem, ht⟩ := List.any_eq_true.mp htrace
    cases t with
    | exec s =>
        obtain ⟨hs, hend⟩ := Bool.and_eq_true_iff.mp ht
        cases hrun : s.exec 20 σ with
        | error e σ' => exact ⟨s, σ, e, σ', hmem, hs, hrun, (hfails s σ hmem hs 19 e σ').mp hrun⟩
        | ok c σ' => simp [hrun] at hend
        | broken σ' => simp [hrun] at hend
        | outOfFuel => simp [hrun] at hend
    | _ => cases ht
  · have hplay : ((start []).play 20 before).any (fun result =>
        (result.2.run 20 source).any fun end' => end'.1.status = .runtimeError) = true := by
      decide +kernel
    obtain ⟨⟨answers, session⟩, hplay, hany⟩ := Ending.any_eq_true.mp hplay
    obtain ⟨⟨report, session'⟩, hrun, hstatus⟩ := Ending.any_eq_true.mp hany
    replace hstatus := of_decide_eq_true hstatus
    exact ⟨answers, session, report, session', hplay, hrun, hstatus,
      hends before source [] rfl answers session hplay report session' hrun hstatus⟩

/-- The task is a class statement whose superclass cannot be read. Nothing is left of what the name of
the class was bound to. -/
def resetsName (n : Nat) : Task × State → Bool
  | (.exec (.class name (some (base, site)) methods), σ) =>
      match (Stmt.class name (some (base, site)) methods).exec n σ,
        (Expr.read base site).eval n σ with
      | .error _ σ', .error _ τ =>
          (τ.scopes.bound? σ.env name.lexeme).isSome &&
            σ'.scopes.bound? σ.env name.lexeme ≠ τ.scopes.bound? σ.env name.lexeme
      | _, _ => false
  | _ => false

/-- A global loses its value to a class statement of its name whose superclass is undefined, and a later
source prints `nil`. -/
theorem failed_class_resets_name :
    let steps : List Step :=
      [.run (bytes "var A=1;"), .run (bytes "class A<B{}"), .run (bytes "print A;")]
    (∃ name base site methods σ e σ' e' τ,
      (.exec (.class name (some (base, site)) methods), σ) ∈ (start []).trace 12 steps ∧
      (Stmt.class name (some (base, site)) methods).exec 12 σ = .error e σ' ∧
      (Expr.read base site).eval 12 σ = .error e' τ ∧
      σ'.scopes.bound? σ.env name.lexeme ≠ τ.scopes.bound? σ.env name.lexeme) ∧
    ((start []).play 12 steps).any (fun result =>
      match result.1 with
      | [_, .ran failed, .ran report] =>
          failed.status = .runtimeError && report.printed = bytes "nil\n"
      | _ => false) = true := by
  intro steps
  refine ⟨?_, by decide +kernel⟩
  have htrace : ((start []).trace 12 steps).any (resetsName 12) = true := by decide +kernel
  obtain ⟨⟨t, σ⟩, hmem, ht⟩ := List.any_eq_true.mp htrace
  unfold resetsName at ht
  split at ht
  case h_1 name base site methods τ heq =>
    cases heq
    split at ht
    case h_1 e σ' e' τ hexec hread =>
      obtain ⟨-, hne⟩ := Bool.and_eq_true_iff.mp ht
      exact ⟨name, base, site, methods, σ, e, σ', e', τ, hmem, hexec, hread, of_decide_eq_true hne⟩
    case h_2 => cases ht
  case h_2 => cases ht

end Session

end Lox
