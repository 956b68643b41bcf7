import Lox.Proofs.Heap.Tasks
import Lox.Proofs.Session.Safety
import Lox.Proofs.Session.Scoping

/-!
# Receivers and superclasses in a session

Over all states that a session comes to, a function whose closure binds `this` is a method of the
instance that is bound there, and stays so. Wherever `super` is evaluated, it stands for the
superclass of the class in which the method around it was declared, whatever the class of the
receiver.
-/

namespace Lox

open Resolution Eval

variable {V : Context → Place → Prop}

theorem Conduct.Orderly.of_state?_eq {α β : Type} {G : Conduct} {before : State} {o : Outcome α}
    {o' : Outcome β} {states : List State} (h : G.Orderly before o states)
    (ho : o'.state? = o.state?) : G.Orderly before o' states where
  leaves σ hσ := h.leaves σ (ho ▸ hσ)
  since := h.since
  upTo τ hτ σ hσ := h.upTo τ hτ σ (ho ▸ hσ)
  pairwise := h.pairwise

theorem Conduct.orderly_nil {α : Type} {G : Conduct} {before : State} {o : Outcome α}
    (h : o.Leaves fun σ => G.moves before σ ∧ G.keeps σ) : G.Orderly before o [] :=
  ⟨h, by simp, by simp, .nil⟩

/-! ### Programs -/

/-- A conduct that holds for tasks holds for programs, if every statement of a program may be set off
in the states that keep an invariant. -/
theorem Conduct.Holds.orderly_runHistory {G : Conduct} (hholds : G.Holds (soundness V))
    (hwalked : Walked V) (n : Nat) {I : State → Prop}
    (hready : ∀ s σ, I σ → G.ready (.exec s) σ)
    (hinvariant : ∀ {σ σ'}, I σ → G.moves σ σ' → σ'.env = σ.env → I σ')
    {ss : List (Stmt Unit)} {σ : State} (hvisit : V .top (.stmts ss)) (h : σ.Sound V)
    (henv : σ.env = State.globals) (hkeeps : G.keeps σ) (hI : I σ) :
    G.Orderly σ (runAll n (Stmt.resolveAll .top ss) σ)
      (runHistory n (Stmt.resolveAll .top ss) σ) := by
  induction ss generalizing σ with
  | nil => exact Conduct.orderly_nil (Outcome.leaves_ok.mpr ⟨hholds.refl σ, hkeeps⟩)
  | cons s ss ih =>
      obtain ⟨hs, hss, heq⟩ := hwalked.program_cons hvisit
      have hpre := pre_exec_top h hs henv
      have hexec := (soundness_holds hwalked).run n hpre
      have hfirst := hholds.history (soundness_holds hwalked) n hpre (hready _ σ hI) hkeeps
      rw [heq, runAll, runHistory]
      rw [Task.run] at hexec hfirst
      cases hrun : (s.resolve .top).exec n σ with
      | ok c σ₁ =>
          rw [hrun] at hexec hfirst
          obtain ⟨hmoves, hkeeps₁⟩ := Outcome.leaves_ok.mp hfirst.leaves
          have henv₁ : σ₁.env = σ.env := hexec.1.env
          refine hfirst.append hholds (Outcome.leaves_ok.mpr (hholds.refl σ₁)) ⟨σ₁, rfl⟩ ?_
          exact ih hss hexec.1.sound (henv₁.trans henv) hkeeps₁ (hinvariant hI hmoves henv₁)
      | error e σ₁ =>
          rw [hrun] at hfirst
          rw [List.append_nil]
          exact hfirst.of_state?_eq rfl
      | broken σ₁ =>
          rw [hrun] at hexec
          exact hexec.elim
      | outOfFuel =>
          rw [hrun] at hfirst
          rw [List.append_nil]
          exact hfirst.unended

theorem receiving_runTrace (hwalked : Walked V) (n : Nat) {ss : List (Stmt Unit)} {σ : State}
    (hvisit : V .top (.stmts ss)) (h : σ.Sound V) (henv : σ.env = State.globals)
    (hheap : σ.Heap) (hbody : σ.InBody) :
    ∀ p ∈ runTrace n (Stmt.resolveAll .top ss) σ, receiving.ready p.1 p.2 ∧ p.2.Heap := by
  refine forall_mem_runTrace (I := fun σ => σ.Heap ∧ σ.InBody) hwalked n
    (fun s σ hs h henv hI => ?_) hvisit h henv ⟨hheap, hbody⟩
  obtain ⟨hheap, hbody⟩ := hI
  have hpre := pre_exec_top h hs henv
  have htrace := (receiving_holds hwalked).trace (soundness_holds hwalked) n hpre ⟨hbody, trivial⟩
    hheap
  refine ⟨htrace, fun c σ' hrun => ?_⟩
  have hend := (soundness_holds hwalked).run n hpre
  have hleft := ((receiving_holds hwalked).history (soundness_holds hwalked) n hpre
    ⟨hbody, trivial⟩ hheap).leaves
  rw [Task.run, hrun] at hend hleft
  obtain ⟨hext, hheap'⟩ := Outcome.leaves_ok.mp hleft
  exact ⟨hheap', hbody.extends hext hend.1.env⟩

namespace Session

/-! ### Sessions -/

/-- The states that a step comes to: only an accepted source is run. -/
def passed (fuel : Nat) (session : Session) : Step → List State
  | .run source =>
      if Accepted source then
        session.entry ::
          runHistory fuel (resolve (Reading.ofSource source).program) session.entry
      else
        []
  | .parse _ => []

/-- The states that a session comes to, in order, if each step has the given fuel. -/
def history (fuel : Nat) (session : Session) : List Step → List State
  | [] => [session.state]
  | step :: steps =>
      session.state ::
        (session.passed fuel step ++
          match session.step fuel step with
          | .done (_, session') => session'.history fuel steps
          | _ => [])

/-- What every state between two steps keeps. -/
structure Homely (session : Session) : Prop where
  heap : session.state.Heap
  entry : session.entry.InBody

theorem extends_entry (session : Session) : session.state.Extends session.entry :=
  .of_eq rfl rfl rfl rfl

theorem Homely.extends {session session' : Session} (h : session.Homely)
    (hext : session.state.Extends session'.state) (hheap : session'.state.Heap) :
    session'.Homely where
  heap := hheap
  entry := by
    have hback : session.entry.Extends session.state := .of_eq rfl rfl rfl rfl
    exact h.entry.extends (hback.trans (hext.trans (extends_entry session'))) rfl

theorem homely_start (clock : List Int) : (start clock).Homely := by
  have hbound (id : ScopeId) (name : Bytes) (hname : Reserved name) :
      (start clock).state.scopes.bound? id name = none := by
    have hpush := Scopes.empty.bound?_push none [(State.clockName, .clock)] id name
    refine hpush.trans ?_
    split
    · rw [List.lookup_cons]
      rcases hname with rfl | rfl <;> rfl
    · rfl
  refine ⟨⟨fun id parent hparent => ?_, ?_, ?_, fun scope v hv => ?_, ?_⟩, Nat.one_pos, ?_⟩
  · have hpush := Scopes.empty.parent?_push none [(State.clockName, .clock)] id
    replace hpush := hpush.symm.trans hparent
    split at hpush
    · cases hpush
    · simp [Scopes.parent?, Scopes.empty] at hpush
  · intro id c base hc
    simp [start, State.initial] at hc
  · intro id c name m hc
    simp [start, State.initial] at hc
  · rw [hbound scope thisName (.inl rfl)] at hv
    cases hv
  · intro f hf
    simp [start, State.initial] at hf
  · exact hbound State.globals

theorem runs_or_idle (step : Step) : (∃ source, step = .run source ∧ Accepted source) ∨
    ∀ source, step = .run source → ¬Accepted source := by
  by_cases hruns : ∃ source, step = .run source ∧ Accepted source
  · exact .inl hruns
  · exact .inr fun source hsource haccepted => hruns ⟨source, hsource, haccepted⟩

/-- A step that runs nothing leaves the state as it is. -/
theorem state_of_idle_step {fuel : Nat} {session session' : Session} {step : Step}
    (hidle : ∀ source, step = .run source → ¬Accepted source) {answer : Answer}
    (hdone : session.step fuel step = .done (answer, session')) : session'.state = session.state := by
  cases step with
  | parse source =>
      cases hdone
      rfl
  | run source =>
      obtain ⟨diagnostics, events, hrun⟩ := run_of_not_accepted (hidle source rfl)
      rw [Session.step, hrun] at hdone
      cases hdone
      rfl

theorem passed_of_idle {fuel : Nat} {session : Session} {step : Step}
    (hidle : ∀ source, step = .run source → ¬Accepted source) : session.passed fuel step = [] := by
  cases step with
  | parse source => rfl
  | run source => exact if_neg (hidle source rfl)

theorem state?_of_step {fuel : Nat} {session session' : Session} {source : Bytes}
    (haccepted : Accepted source) {answer : Answer}
    (hdone : session.step fuel (.run source) = .done (answer, session')) :
    (runAll fuel (resolve (Reading.ofSource source).program) session.entry).state? =
      some session'.state := by
  obtain ⟨report, -, hfinishes⟩ := finishes_of_step hdone
  cases hfinishes with
  | refused hrefused => exact absurd haccepted hrefused
  | ended _ hend => rw [hend, Outcome.state?]
  | stopped _ hend => rw [hend, Outcome.state?]

/-- The states of a step lie between those before and behind it. -/
theorem orderly_passed (fuel : Nat) {all : List Step} {session : Session} (hhomely : session.Homely)
    (h : session.state.Sound (Visited all)) {step : Step} (hstep : step ∈ all) :
    ∃ o : Outcome Unit, receiving.Orderly session.state o (session.passed fuel step) ∧
      ∀ answer session', session.step fuel step = .done (answer, session') →
        o.state? = some session'.state := by
  rcases runs_or_idle step with ⟨source, rfl, haccepted⟩ | hidle
  · have hentry : session.entry.Heap := hhomely.heap.of_eq rfl rfl rfl rfl
    have hrun := (receiving_holds (walked_visited all)).orderly_runHistory (walked_visited all) fuel
      (I := State.InBody) (fun _ _ hbody => ⟨hbody, trivial⟩) State.InBody.extends
      ⟨source, hstep, haccepted, .start⟩ (entry_sound h) rfl hentry hhomely.entry
    rw [passed, if_pos haccepted]
    exact ⟨_, hrun.cons (receiving_holds (walked_visited all)) (extends_entry session) hentry,
      fun answer session' hdone => state?_of_step haccepted hdone⟩
  · rw [passed_of_idle hidle]
    refine ⟨.ok () session.state,
      Conduct.orderly_nil (Outcome.leaves_ok.mpr ⟨.refl _, hhomely.heap⟩), ?_⟩
    intro answer session' hdone
    exact congrArg some (state_of_idle_step hidle hdone).symm

theorem homely_step (fuel : Nat) {all : List Step} {session session' : Session}
    (hhomely : session.Homely) (h : session.state.Sound (Visited all)) {step : Step}
    (hstep : step ∈ all) {answer : Answer}
    (hdone : session.step fuel step = .done (answer, session')) : session'.Homely := by
  obtain ⟨o, horderly, hstate⟩ := orderly_passed fuel hhomely h hstep
  obtain ⟨hext, hheap⟩ := horderly.leaves _ (hstate answer session' hdone)
  exact hhomely.extends hext hheap

theorem orderly_history (fuel : Nat) {all : List Step} (steps : List Step)
    (hsub : ∀ step ∈ steps, step ∈ all) {session : Session} (hhomely : session.Homely)
    (h : session.state.Sound (Visited all)) :
    receiving.Orderly session.state (.outOfFuel : Outcome Unit) (session.history fuel steps) := by
  have hholds := receiving_holds (walked_visited all)
  induction steps generalizing session with
  | nil =>
      have hnone : receiving.Orderly session.state (.outOfFuel : Outcome Unit) [] :=
        Conduct.orderly_nil Outcome.leaves_outOfFuel
      exact hnone.cons hholds (.refl _) hhomely.heap
  | cons step steps ih =>
      rw [List.forall_mem_cons] at hsub
      obtain ⟨o, hfirst, hstate⟩ := orderly_passed fuel hhomely h hsub.1
      rw [history]
      refine Conduct.Orderly.cons hholds (.refl _) hhomely.heap ?_
      cases hdone : session.step fuel step with
      | done result =>
          obtain ⟨answer, session'⟩ := result
          have hend : o.state? = some session'.state := hstate answer session' hdone
          have hlater : receiving.Orderly session'.state (.outOfFuel : Outcome Unit)
              (session'.history fuel steps) :=
            ih hsub.2 (homely_step fuel hhomely h hsub.1 hdone)
              ((sound_step fuel h hsub.1).2 answer session' hdone)
          refine hfirst.append hholds (fun σ hσ => ?_) ⟨_, hend⟩ hlater
          obtain rfl : σ = session'.state := Option.some.inj (hσ.symm.trans hend)
          exact .refl _
      | broken =>
          rw [List.append_nil]
          exact hfirst.unended
      | outOfFuel =>
          rw [List.append_nil]
          exact hfirst.unended

theorem received_of_trace (fuel : Nat) {all : List Step} (steps : List Step)
    (hsub : ∀ step ∈ steps, step ∈ all) {session : Session} (hhomely : session.Homely)
    (h : session.state.Sound (Visited all)) :
    ∀ p ∈ session.trace fuel steps, receiving.ready p.1 p.2 ∧ p.2.Heap := by
  refine forall_mem_trace (J := Homely) fuel (fun source session hmem haccepted h hhomely => ?_)
    (fun step session answer session' hstep h hhomely hdone =>
      homely_step fuel hhomely h hstep hdone) steps hsub h hhomely
  exact receiving_runTrace (walked_visited all) fuel ⟨source, hmem, haccepted, .start⟩
    (entry_sound h) rfl (hhomely.heap.of_eq rfl rfl rfl rfl) hhomely.entry

theorem homed_of_trace (fuel : Nat) {all : List Step} (steps : List Step)
    (hsub : ∀ step ∈ steps, step ∈ all) {session : Session} (hhomely : session.Homely)
    (h : session.state.Sound (Visited all)) :
    ∀ p ∈ session.trace fuel steps, p.1.Homed p.2 ∧ p.2.Heap := by
  intro p hp
  obtain ⟨⟨-, hhomed⟩, hheap⟩ := received_of_trace fuel steps hsub hhomely h p hp
  exact ⟨hhomed, hheap⟩

/-! ### What `this` and `super` stand for -/

/-- If `this` is bound in the closure of the function, it is bound to an instance, and the class
`owner` of that instance or above it has the function as a method, closed directly outside. There
`super` is bound to the superclass of `owner`. -/
def ThisSound (σ : State) (f : Function) : Prop :=
  ∀ v, σ.scopes.bound? f.closure thisName = some v →
    ∃ receiver o owner c name m, v = .object receiver ∧ σ.objects[receiver]? = some o ∧
      σ.Inherits o.classId owner ∧ σ.classes[owner]? = some c ∧
      c.methods.lookup name = some m ∧ m.decl = f.decl ∧ m.isInitializer = f.isInitializer ∧
      σ.scopes.parent? f.closure = some m.closure ∧
      ∀ base, c.superclass = some base →
        σ.scopes.bound? m.closure superName = some (.class base)

/-- `super` is evaluated inside a method. The receiver is what `this` stands for in the innermost
scope around that declares it. The scope directly outside is the one in which the method and its
siblings are closed. The search for a method starts at the superclass of the class that has these. -/
def SuperSound (steps : List Step) (tasks : List (Task × State)) (σ : State) : Task → Prop
  | .eval (.super keyword site method) =>
      ∃ ctx distance inner outer receiver owner m base,
        Visited steps ctx (.expr (.super keyword () method)) ∧ site = some (distance + 1) ∧
        Declares steps tasks σ ctx (.expr (.super keyword () method)) thisName distance inner ∧
        σ.scopes.bound? inner thisName = some (.object receiver) ∧
        Declares steps tasks σ ctx (.expr (.super keyword () method)) superName (distance + 1)
          outer ∧
        σ.scopes.parent? inner = some outer ∧ σ.Offers receiver owner m ∧ m.closure = outer ∧
        (∀ c ∈ σ.classes, ∀ name m, c.methods.lookup name = some m → m.closure = outer →
          c.superclass = some base) ∧
        ∀ n, (Expr.super keyword site method).eval (n + 1) σ =
          match σ.method? base method.lexeme with
          | some f => .ok (σ.boundMethod f receiver).1 (σ.boundMethod f receiver).2
          | none => fail method (.undefinedProperty method.lexeme) σ
  | _ => True

theorem thisSound_of_home {σ : State} (hheap : σ.Heap) {f : Function} (hf : σ.FunctionHome f) :
    ThisSound σ f := by
  intro v hv
  obtain ⟨receiver, owner, m, rfl, hoffers, hparent, hdecl, hinit⟩ := hf.receiver v hv
  obtain ⟨o, ho, hinherits⟩ := hoffers.inherits
  obtain ⟨c, name, hc, hm⟩ := hoffers.method
  refine ⟨receiver, o, owner, c, name, m, rfl, ho, hinherits, hc, hm, hdecl, hinit, hparent, ?_⟩
  intro base hbase
  have hsuper := (hheap.methods owner c name m hc hm).super
  rwa [hbase] at hsuper

theorem superSound_of_ready {steps : List Step} {tasks : List (Task × State)} {σ : State} {t : Task}
    (hsound : σ.Sound (Visited steps)) (hready : t.Ready (Reaches steps tasks) σ)
    (hheap : σ.Heap) : SuperSound steps tasks σ t := by
  cases t with
  | eval e =>
      obtain ⟨ctx, node, hreach, rfl, hmatches⟩ := hready
      cases node with
      | «super» keyword site method =>
          have hvisit := Reaches.visited hreach
          have hsituated := Reaches.situated hreach hmatches rfl
          have hchecked := (walked_visited steps).checked hvisit
          obtain ⟨d, inner, outer, receiver, base, hlocate, hready, hready', hinner, houter, hthis,
            hsuper⟩ := hsound.super_scopes hchecked hmatches
          have hparent := Scopes.parent?_of_ancestor? hinner houter
          obtain ⟨receiver', owner, m, c, heq, hoffers, hclosure, -⟩ :=
            hheap.superclass hthis hparent hsuper
          cases heq
          obtain ⟨inner', hdeclares⟩ := declares_of_locate hsituated hmatches hready.locate
          obtain ⟨outer', hdeclares'⟩ := declares_of_locate hsituated hmatches hready'.locate
          obtain rfl : inner' = inner := Option.some.inj (hdeclares.ancestor.symm.trans hinner)
          obtain rfl : outer' = outer := Option.some.inj (hdeclares'.ancestor.symm.trans houter)
          refine ⟨ctx, d, inner', outer', receiver, owner, m, base, hvisit, hlocate, hdeclares, hthis,
            hdeclares', hparent, hoffers, hclosure, ?_, fun n => ?_⟩
          · intro c hc name m hm hclosure
            have hhome := (hheap.methodHome hc hm).super
            rw [hclosure, hsuper] at hhome
            obtain ⟨base', hbase', heq⟩ := Option.map_eq_some_iff.mp hhome.symm
            cases heq
            exact hbase'
          · rw [Expr.eval]
            cases hmethod : σ.method? base method.lexeme <;>
              simp only [Eval.super, hlocate, Option.getD_some, Nat.add_sub_cancel,
                Scopes.getAt?_of_bound? hinner hthis, Scopes.getAt?_of_bound? houter hsuper,
                hmethod]
      | _ => trivial
  | _ => trivial

/-- In every state of every session, functions with a receiver are methods that it has, closed where
`super` stands for the superclass of the class that has them; receivers never change; and every
evaluation of `super` starts from that superclass and keeps the receiver. -/
theorem this_super_sound (clock : List Int) (fuel : Nat) (steps : List Step) :
    (∀ σ ∈ (start clock).history fuel steps,
      (∀ f ∈ σ.functions, ThisSound σ f) ∧
      ∀ c ∈ σ.classes, ∀ name f, c.methods.lookup name = some f → ThisSound σ f) ∧
    ((start clock).history fuel steps).Pairwise (fun σ σ' =>
      ∀ id v, σ.scopes.bound? id thisName = some v → σ'.scopes.bound? id thisName = some v) ∧
    ∀ p ∈ (start clock).trace fuel steps,
      (∀ f arguments, p.1 = .invoke f arguments → ThisSound p.2 f) ∧
        SuperSound steps ((start clock).trace fuel steps) p.2 p.1 := by
  have hsound := sound_start clock (Visited steps)
  have hhomely := homely_start clock
  have horderly := orderly_history fuel steps (fun _ hstep => hstep) hhomely hsound
  refine ⟨fun σ hσ => ?_, ?_, fun p hp => ?_⟩
  · obtain ⟨-, hheap⟩ := horderly.since σ hσ
    refine ⟨fun f hf => thisSound_of_home hheap (hheap.functions f hf), ?_⟩
    intro c hc name f hf v hv
    rw [(hheap.methodHome hc hf).this] at hv
    cases hv
  · refine horderly.pairwise.imp fun hext id v hv => ?_
    rw [hext.reserved id (Scopes.lt_next_of_bound? _ hv) thisName (.inl rfl)]
    exact hv
  · obtain ⟨hhomed, hheap⟩ := homed_of_trace fuel steps (fun _ hstep => hstep) hhomely hsound p hp
    obtain ⟨hsound', -⟩ := pre_of_trace fuel steps (fun _ hstep => hstep) hsound p hp
    obtain ⟨-, hready⟩ := reached_of_trace clock fuel steps p hp
    refine ⟨fun f arguments ht => ?_, superSound_of_ready hsound' hready hheap⟩
    rw [ht] at hhomed
    exact thisSound_of_home hheap hhomed

/-- The receiver is an instance of a class that inherits the method in which `super` stands. -/
theorem this_super_sound_inherited :
    let steps : List Step :=
      [.run (bytes "class A{m(){}}class B<A{m(){super.m();}}class C<B{}"), .run (bytes "C().m();")]
    (∃ σ ∈ (start []).history 14 steps, ∃ f ∈ σ.functions,
      (σ.scopes.bound? f.closure thisName).isSome = true ∧ ThisSound σ f) ∧
    ∃ p ∈ (start []).trace 14 steps, isSuper p.1 = true ∧
      SuperSound steps ((start []).trace 14 steps) p.2 p.1 := by
  intro steps
  obtain ⟨hthis, -, hsuper⟩ := this_super_sound [] 14 steps
  constructor
  · have hbound : ((start []).history 14 steps).any (fun σ =>
        σ.functions.any fun f => (σ.scopes.bound? f.closure thisName).isSome) = true := by
      decide +kernel
    obtain ⟨σ, hσ, hany⟩ := List.any_eq_true.mp hbound
    obtain ⟨i, hi, hf⟩ := Array.any_eq_true.mp hany
    exact ⟨σ, hσ, σ.functions[i], Array.getElem_mem hi, hf,
      (hthis σ hσ).1 _ (Array.getElem_mem hi)⟩
  · have htrace : ((start []).trace 14 steps).any (fun p => isSuper p.1) = true := by
      decide +kernel
    obtain ⟨p, hp, hsuperTask⟩ := List.any_eq_true.mp htrace
    exact ⟨p, hp, hsuperTask, (hsuper p hp).2⟩

end Session

end Lox
