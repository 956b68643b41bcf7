import Lox.Proofs.Soundness.Tasks

/-!
# Soundness of statements

Each statement keeps the contract of evaluation: it enters code only in instances of the scopes
around it, and when it was executed to its end what it declares is bound. With the steps of the
other tasks that gives the contract as a whole.
-/

namespace Lox

open Resolution Eval

variable {T : Task → State → Prop} {V : Reach}

theorem settled_of_stays {s : Stmt Site} (hstays : ∀ ctx : Context, ctx.after s = ctx)
    {σ σ' : State} (h : Follows V σ σ') {c : Completion} (hc : c.Valid σ') :
    (Task.exec s).Settled σ c σ' := by
  refine ⟨hc, fun _ ctx hmatches => ?_⟩
  rw [hstays ctx]
  exact h.matches hmatches

theorem settled_of_define {s : Stmt Site} {name : Token}
    (hafter : ∀ ctx : Context, ctx.after s = ctx.define name) {σ σ₁ : State} (h : Follows V σ σ₁)
    (v : Value) : (Task.exec s).Settled σ .normal (σ₁.define σ₁.env name.lexeme v) := by
  refine ⟨trivial, fun _ ctx hmatches => ?_⟩
  rw [hafter ctx]
  exact (h.matches hmatches).define name v

section Cases

variable {σ : State} {ctx : Context}

theorem ends_block (h : σ.Sound V) {body : List (Stmt Unit)}
    (hvisit : V.Here σ.scopes σ.env ctx (.stmt (.block body))) (hmatches : Matches σ.scopes σ.env ctx.scopes) :
    Ends V σ (Task.execWork ((Stmt.block body).resolve ctx) σ)
      ((Task.exec ((Stmt.block body).resolve ctx)).Settled σ) := by
  simp only [Stmt.resolve, Task.execWork]
  refine ends_answer h.follows ⟨ctx, .stmt (.block body), ctx.enter [], body, [], hvisit,
    List.mem_cons_self, rfl, rfl, hmatches, ?_, ?_⟩ ?_
  · intro name hname
    cases hname
  · intro name v hv
    cases hv
  · intro c σ' hσ' hc
    exact settled_of_stays (fun _ => rfl) hσ' hc

theorem read_state {name : Token} {site : Site} {v : Value} {σ' : State}
    (h : read name site σ = .ok v σ') : σ' = σ := by
  unfold Eval.read at h
  split at h
  · split at h
    · cases h
      rfl
    · cases h
  · split at h
    · cases h
      rfl
    · cases h

theorem classWork_meets (hclosed : V.Closed T) (h : σ.Sound V) {name : Token}
    (hname : Plain name.lexeme) (hmatches : Matches σ.scopes σ.env ctx.scopes)
    {base : Option (Token × Unit)} {ds : List (FunctionDecl Unit)}
    (hbase : ∀ c ∈ Place.superclass ctx base, V.Here σ.scopes σ.env c.1 c.2)
    (hplain : base = none → V.Here σ.scopes σ.env (ctx.inClass false) (.methods ds))
    (hderived : ∀ use id, base = some use →
      read use.1 (ctx.locate use.1.lexeme) σ = .ok (.class id) σ →
      V.Here (methodScope (some id) σ).2.scopes (methodScope (some id) σ).1 (ctx.inClass true)
        (.methods ds)) :
    (Task.classWork name (base.map fun base => (base.1, ctx.locate base.1.lexeme))
      (FunctionDecl.resolveMethods (ctx.inClass base.isSome) ds) σ).Meets
        (fun c σ' => Follows V σ σ' ∧ c = .normal) fun _ σ' => Follows V σ σ' := by
  cases base with
  | none =>
      exact finishClass_meets hclosed h hname hmatches none (fun _ hnone => nomatch hnone)
        (hplain rfl)
  | some base =>
      have hchecked := hclosed.checked (hbase (ctx, .expr (.read base.1 ())) (by
        simp [Place.superclass]))
      have hread := yields_read h hchecked hmatches
      simp only [Task.classWork, Option.map_some]
      cases hend : read base.1 (ctx.locate base.1.lexeme) σ with
      | ok v σ' =>
          obtain rfl := read_state hend
          rw [hend] at hread
          cases v with
          | «class» id =>
              refine finishClass_meets hclosed h hname hmatches (some id) (fun base hbase => ?_)
                (hderived base id rfl hend)
              cases hbase
              exact hread.2
          | _ => exact h.follows
      | error e σ' =>
          rw [hend] at hread
          exact hread
      | broken σ' =>
          rw [hend] at hread
          exact hread
      | outOfFuel => trivial

/-- The methods of a derived class are reached in the scope that is created for `super`. -/
theorem here_derived (hclosed : V.Closed T) {name base : Token} {ds : List (FunctionDecl Unit)}
    (hvisit : V.Here σ.scopes σ.env ctx (.stmt (.class name (some (base, ())) ds)))
    (hmatches : Matches σ.scopes σ.env ctx.scopes)
    (ht : T (.exec ((Stmt.class name (some (base, ())) ds).resolve ctx)) σ) {id : ClassId}
    {σ₁ : State} (hσ₁ : σ₁ = σ.define σ.env name.lexeme .nil)
    (hbase : read base ((ctx.define name).locate base.lexeme) σ₁ = .ok (.class id) σ₁) :
    V.Here (methodScope (some id) σ₁).2.scopes (methodScope (some id) σ₁).1
      ((ctx.define name).inClass true) (.methods ds) := by
  have hnext : σ₁.scopes.next = σ.scopes.next := by
    rw [hσ₁]
    exact Scopes.next_define _ _ _ _
  have hdefined : Matches σ₁.scopes σ₁.env (ctx.define name).scopes := by
    rw [hσ₁]
    exact hmatches.define name .nil
  have hsame : σ₁.scopes.instances σ₁.env (ctx.define name).scopes =
      σ.scopes.instances σ.env ctx.scopes := by
    rw [Scopes.instances_congr _ _ (length_define ctx name), hσ₁]
    exact hmatches.instances_grows (Scopes.grows_define _ _ _ _)
  have hids : (methodScope (some id) σ₁).2.scopes.instances (methodScope (some id) σ₁).1
      ([(superName, true)] :: (ctx.define name).scopes) =
        σ.scopes.next :: σ.scopes.instances σ.env ctx.scopes := by
    rw [← hsame, ← hnext]
    exact hdefined.instances_push _ _
  rw [hσ₁] at hbase
  have hopened := hclosed.opens hvisit (.superclass ht hmatches.headD_instances.symm hbase)
  rw [Reach.Here]
  exact hids.symm ▸ hopened
theorem ends_class (hclosed : V.Closed T) (h : σ.Sound V) {name : Token}
    {base : Option (Token × Unit)} {ds : List (FunctionDecl Unit)}
    (hvisit : V.Here σ.scopes σ.env ctx (.stmt (.class name base ds)))
    (hmatches : Matches σ.scopes σ.env ctx.scopes)
    (ht : T (.exec ((Stmt.class name base ds).resolve ctx)) σ) :
    Ends V σ (Task.execWork ((Stmt.class name base ds).resolve ctx) σ)
      ((Task.exec ((Stmt.class name base ds).resolve ctx)).Settled σ) := by
  have hname : Plain name.lexeme := (hclosed.checked hvisit).wellFormed.fine
  have hdefine : Follows V σ (σ.define σ.env name.lexeme .nil) :=
    h.follows_define σ.env trivial hname
  have hpart (c : Context × Place) (hc : c ∈ (Place.stmt (.class name base ds)).within ctx) :
      V.Here (σ.define σ.env name.lexeme .nil).scopes σ.env c.1 c.2 :=
    hdefine.here (hclosed.here hvisit hc) hmatches
      (Place.declaresMore_within ctx _ c hc).length_eq.symm
  simp only [Stmt.resolve, Task.execWork]
  refine Outcome.Meets.mono (classWork_meets hclosed hdefine.sound hname (hmatches.define name .nil)
    ?_ ?_ ?_) ?_ ?_
  · intro c hc
    cases base with
    | none => cases hc
    | some base => exact hpart c hc
  · rintro rfl
    exact hpart _ List.mem_cons_self
  · rintro ⟨base, ⟨⟩⟩ id rfl hbase
    exact here_derived hclosed hvisit hmatches ht rfl hbase
  · rintro c σ' ⟨hσ', rfl⟩
    refine ⟨hdefine.trans hσ', trivial, fun _ ctx' hmatches' => ?_⟩
    exact hσ'.matches (hmatches'.define name .nil)
  · exact fun _ σ' hσ' => hdefine.trans hσ'

theorem ends_function (hclosed : V.Closed T) (h : σ.Sound V) {d : FunctionDecl Unit}
    (hvisit : V.Here σ.scopes σ.env ctx (.stmt (.function d)))
    (hmatches : Matches σ.scopes σ.env ctx.scopes) :
    Ends V σ (Task.execWork ((Stmt.function d).resolve ctx) σ)
      ((Task.exec ((Stmt.function d).resolve ctx)).Settled σ) := by
  have hname : Plain d.name.lexeme := (hclosed.checked hvisit).wellFormed.fine
  have hbody : V.Here σ.scopes σ.env (ctx.define d.name) (.function .function d) :=
    hclosed.here hvisit (by simp [Place.within, Place.next, Place.parts])
  simp only [Stmt.resolve, Task.execWork, name_resolve]
  refine ⟨h.defineFunction hname hbody hmatches (by simp), trivial, fun _ ctx' hmatches' => ?_⟩
  rw [Context.after, name_resolve]
  exact hmatches'.define d.name _

theorem ends_var (hclosed : V.Closed T) (h : σ.Sound V) {name : Token}
    {init : Option (Expr Unit)} (hvisit : V.Here σ.scopes σ.env ctx (.stmt (.var name init)))
    (hmatches : Matches σ.scopes σ.env ctx.scopes) :
    Ends V σ (Task.execWork ((Stmt.var name init).resolve ctx) σ)
      ((Task.exec ((Stmt.var name init).resolve ctx)).Settled σ) := by
  have hname : Plain name.lexeme := (hclosed.checked hvisit).wellFormed.fine
  cases init with
  | none =>
      simp only [Stmt.resolve, Option.map_none, Task.execWork]
      exact ends_ok (h.follows_define σ.env trivial hname)
        (settled_of_define (fun _ => rfl) h.follows .nil)
  | some e =>
      simp only [Stmt.resolve, Option.map_some, Task.execWork]
      refine ends_eval h.follows
        (hclosed.here hvisit (by simp [Place.within, Place.next, Place.parts, Place.expr?]))
        (hmatches.declare name) ?_
      intro v σ₁ hσ₁ hv
      exact ends_ok (hσ₁.trans (hσ₁.sound.follows_define _ hv hname))
        (settled_of_define (fun _ => rfl) hσ₁ v)

theorem ends_return (hclosed : V.Closed T) (h : σ.Sound V) {keyword : Token}
    {value : Option (Expr Unit)} (hvisit : V.Here σ.scopes σ.env ctx (.stmt (.return keyword value)))
    (hmatches : Matches σ.scopes σ.env ctx.scopes) :
    Ends V σ (Task.execWork ((Stmt.return keyword value).resolve ctx) σ)
      ((Task.exec ((Stmt.return keyword value).resolve ctx)).Settled σ) := by
  cases value with
  | none => exact ends_ok h.follows (settled_of_stays (fun _ => rfl) h.follows trivial)
  | some e =>
      simp only [Stmt.resolve, Option.map_some, Task.execWork]
      refine ends_eval h.follows (hclosed.here hvisit
        (by simp [Place.within, Place.next, Place.parts, Place.expr?])) hmatches ?_
      intro v σ₁ hσ₁ hv
      exact ends_ok hσ₁ (settled_of_stays (fun _ => rfl) hσ₁ hv)

theorem ends_ifThen (hclosed : V.Closed T) (h : σ.Sound V) {condition : Expr Unit}
    {thenBranch : Stmt Unit} (hvisit : V.Here σ.scopes σ.env ctx (.stmt (.ifThen condition thenBranch)))
    (hmatches : Matches σ.scopes σ.env ctx.scopes) :
    Ends V σ (Task.execWork ((Stmt.ifThen condition thenBranch).resolve ctx) σ)
      ((Task.exec ((Stmt.ifThen condition thenBranch).resolve ctx)).Settled σ) := by
  have hstays : Stays thenBranch := (hclosed.checked hvisit).wellFormed.fine
  have hthen : V.Here σ.scopes σ.env ctx (.stmt thenBranch) :=
    hclosed.here hvisit (by simp [Place.within, Place.next, Place.parts])
  simp only [Stmt.resolve, Task.execWork]
  refine ends_eval h.follows
    (hclosed.here hvisit (by simp [Place.within, Place.next, Place.parts])) hmatches ?_
  intro v σ₁ hσ₁ _
  split
  · refine ends_answer hσ₁ ⟨ctx, thenBranch, hσ₁.here hthen hmatches rfl, rfl,
      hσ₁.matches hmatches⟩ fun c σ' _ hc => ⟨hc.1, fun hnormal ctx' hmatches' => ?_⟩
    exact hc.2 hnormal ctx' (hσ₁.matches hmatches')
  · refine ends_ok hσ₁ (settled_of_stays (fun ctx' => ?_) hσ₁ trivial)
    rw [Context.after, after_resolve]
    exact hstays ctx'

theorem ends_ifElse (hclosed : V.Closed T) (h : σ.Sound V) {condition : Expr Unit}
    {thenBranch elseBranch : Stmt Unit}
    (hvisit : V.Here σ.scopes σ.env ctx (.stmt (.ifElse condition thenBranch elseBranch)))
    (hmatches : Matches σ.scopes σ.env ctx.scopes) :
    Ends V σ (Task.execWork ((Stmt.ifElse condition thenBranch elseBranch).resolve ctx) σ)
      ((Task.exec ((Stmt.ifElse condition thenBranch elseBranch).resolve ctx)).Settled σ) := by
  obtain ⟨hstaysThen, hstaysElse⟩ : Stays thenBranch ∧ Stays elseBranch :=
    (hclosed.checked hvisit).wellFormed.fine
  have hthen : V.Here σ.scopes σ.env ctx (.stmt thenBranch) :=
    hclosed.here hvisit (by simp [Place.within, Place.next, Place.parts])
  have helse : V.Here σ.scopes σ.env (ctx.after thenBranch) (.stmt elseBranch) :=
    hclosed.here hvisit (by simp [Place.within, Place.next, Place.parts])
  have hstays (ctx' : Context) :
      ctx'.after ((Stmt.ifElse condition thenBranch elseBranch).resolve ctx) = ctx' := by
    rw [after_resolve, Context.after, hstaysThen ctx']
    exact hstaysElse ctx'
  simp only [Stmt.resolve] at hstays
  simp only [Stmt.resolve, Task.execWork]
  refine ends_eval h.follows
    (hclosed.here hvisit (by simp [Place.within, Place.next, Place.parts])) hmatches ?_
  intro v σ₁ hσ₁ _
  split
  · exact ends_answer hσ₁ ⟨ctx, thenBranch, hσ₁.here hthen hmatches rfl, rfl,
      hσ₁.matches hmatches⟩ fun c σ' hσ' hc => settled_of_stays hstays (hσ₁.trans hσ') hc.1
  · refine ends_answer hσ₁ ⟨ctx.after thenBranch, elseBranch,
      hσ₁.here helse hmatches (length_after ctx thenBranch).symm, rfl, ?_⟩
      fun c σ' hσ' hc => settled_of_stays hstays (hσ₁.trans hσ') hc.1
    rw [hstaysThen ctx]
    exact hσ₁.matches hmatches

theorem ends_while (hclosed : V.Closed T) (h : σ.Sound V) {condition : Expr Unit}
    {body : Stmt Unit} (hvisit : V.Here σ.scopes σ.env ctx (.stmt (.while condition body)))
    (hmatches : Matches σ.scopes σ.env ctx.scopes) :
    Ends V σ (Task.execWork ((Stmt.while condition body).resolve ctx) σ)
      ((Task.exec ((Stmt.while condition body).resolve ctx)).Settled σ) := by
  have hstays : Stays body := (hclosed.checked hvisit).wellFormed.fine
  simp only [Stmt.resolve, Task.execWork]
  refine ends_answer h.follows ⟨ctx, condition, body,
    hclosed.here hvisit (by simp [Place.within, Place.next, Place.parts]),
    hclosed.here hvisit (by simp [Place.within, Place.next, Place.parts]), rfl, rfl, hmatches⟩ ?_
  intro c σ' hσ' hc
  refine settled_of_stays (fun ctx' => ?_) hσ' hc
  rw [Context.after, after_resolve]
  exact hstays ctx'

end Cases

theorem ends_execWork (hclosed : V.Closed T) {σ : State} (h : σ.Sound V) {ctx : Context}
    {s : Stmt Unit} (hvisit : V.Here σ.scopes σ.env ctx (.stmt s))
    (hmatches : Matches σ.scopes σ.env ctx.scopes) (ht : T (.exec (s.resolve ctx)) σ) :
    Ends V σ (Task.execWork (s.resolve ctx) σ) ((Task.exec (s.resolve ctx)).Settled σ) := by
  cases s with
  | block body => exact ends_block h hvisit hmatches
  | «class» name base ds => exact ends_class hclosed h hvisit hmatches ht
  | expr e =>
      simp only [Stmt.resolve, Task.execWork]
      refine ends_eval h.follows
        (hclosed.here hvisit (by simp [Place.within, Place.next, Place.parts])) hmatches ?_
      intro v σ₁ hσ₁ _
      exact ends_ok hσ₁ (settled_of_stays (fun _ => rfl) hσ₁ trivial)
  | function d => exact ends_function hclosed h hvisit hmatches
  | ifThen condition thenBranch => exact ends_ifThen hclosed h hvisit hmatches
  | ifElse condition thenBranch elseBranch => exact ends_ifElse hclosed h hvisit hmatches
  | print e =>
      simp only [Stmt.resolve, Task.execWork]
      refine ends_eval h.follows
        (hclosed.here hvisit (by simp [Place.within, Place.next, Place.parts])) hmatches ?_
      intro v σ₁ hσ₁ _
      have hprint : Follows V σ₁ (σ₁.print (σ₁.text v)) :=
        ⟨hσ₁.sound.withPrinted _, ⟨.refl _, Nat.le_refl _, Nat.le_refl _, Nat.le_refl _⟩, rfl⟩
      exact ends_ok (hσ₁.trans hprint)
        (settled_of_stays (fun _ => rfl) (hσ₁.trans hprint) trivial)
  | «return» keyword value => exact ends_return hclosed h hvisit hmatches
  | var name init => exact ends_var hclosed h hvisit hmatches
  | «while» condition body => exact ends_while hclosed h hvisit hmatches

/-! ### Lists of statements, scopes and loops -/

theorem ends_execAll (hclosed : V.Closed T) {σ : State} (h : σ.Sound V) {ctx : Context}
    {ss : List (Stmt Unit)} (hvisit : V.Here σ.scopes σ.env ctx (.stmts ss))
    (hmatches : Matches σ.scopes σ.env ctx.scopes) :
    Ends V σ (Task.work (.execAll (Stmt.resolveAll ctx ss)) σ) fun c σ' => c.Valid σ' := by
  cases ss with
  | nil => exact ends_ok h.follows trivial
  | cons s ss =>
      have hs : V.Here σ.scopes σ.env ctx (.stmt s) :=
        hclosed.here hvisit (by simp [Place.within, Place.next])
      have hss : V.Here σ.scopes σ.env (ctx.after s) (.stmts ss) :=
        hclosed.here hvisit (by simp [Place.within, Place.next])
      simp only [Stmt.resolveAll, Task.work]
      refine ends_ask h.follows ⟨ctx, s, hs, rfl, hmatches⟩ ?_
      intro c σ₁ hσ₁ hc
      cases c with
      | normal =>
          have hafter := hc.2 rfl ctx hmatches
          rw [after_resolve] at hafter
          exact ends_answer hσ₁ ⟨ctx.after s, ss,
            hσ₁.here hss hmatches (length_after ctx s).symm, rfl, hafter⟩ fun c σ' _ hc => hc
      | returned v => exact ends_ok hσ₁ hc.1

theorem ends_scope (hclosed : V.Closed T) {σ : State} (h : σ.Sound V) {body : List (Stmt Site)}
    {parent : ScopeId} {bindings : Bindings Value}
    (hready : ScopeReady V σ body parent bindings) (ht : T (.scope body parent bindings) σ) :
    Ends V σ (Task.work (.scope body parent bindings) σ) fun c σ' => c.Valid σ' := by
  obtain ⟨ctx, p, inner, ss, frame, hvisit, hnext, hscopes, rfl, hmatches, hframe, hbindings⟩ :=
    hready
  have henter : (σ.enter parent bindings).Sound V := (h.newScope parent hbindings).withEnv _
  have hgrows : σ.Grows (σ.enter parent bindings) :=
    have hnew := σ.grows_newScope parent bindings
    ⟨hnew.scopes, hnew.functions, hnew.classes, hnew.objects⟩
  have hleave {σ' : State} (h' : Follows V (σ.enter parent bindings) σ') :
      Follows V σ { σ' with env := σ.env } :=
    have hall := hgrows.trans h'.grows
    ⟨h'.sound.withEnv _, ⟨hall.scopes, hall.functions, hall.classes, hall.objects⟩, rfl⟩
  have hopened : V.Here (σ.enter parent bindings).scopes (σ.enter parent bindings).env inner
      (.stmts ss) := by
    have hids : (σ.enter parent bindings).scopes.instances σ.scopes.next inner.scopes =
        σ.scopes.next :: σ.scopes.instances parent (p.around ctx) := by
      rw [hscopes]
      exact hmatches.instances_push frame bindings
    rw [← hmatches.headD_instances] at ht
    have hbody := hclosed.opens hvisit (.body hnext hscopes ht)
    rw [Reach.Here]
    exact hids.symm ▸ hbody
  refine ⟨⟨henter, inner, ss, hopened, rfl, ?_⟩, fun c σ' _ h' => ⟨hleave h'.1, ?_⟩,
    fun _ σ' h' => hleave h'⟩
  · rw [hscopes]
    exact hmatches.push h.nonempty hframe
  · cases c with
    | normal => trivial
    | returned v => exact Value.Valid.grows ⟨.refl _, Nat.le_refl _, Nat.le_refl _, Nat.le_refl _⟩ h'.2

theorem ends_loop {σ : State} (h : σ.Sound V) {condition : Expr Site} {body : Stmt Site}
    (hready : LoopReady V σ condition body) :
    Ends V σ (Task.work (.loop condition body) σ) fun c σ' => c.Valid σ' := by
  obtain ⟨ctx, e, s, hcondition, hbody, rfl, rfl, hmatches⟩ := hready
  simp only [Task.work]
  refine ends_eval h.follows hcondition hmatches ?_
  intro v σ₁ hσ₁ _
  split
  · refine ends_ask hσ₁
      ⟨ctx, s, hσ₁.here hbody hmatches rfl, rfl, hσ₁.matches hmatches⟩ ?_
    intro c σ₂ hσ₂ hc
    cases c with
    | normal =>
        have hturn := hσ₁.trans hσ₂
        exact ends_answer hturn ⟨ctx, e, s, hturn.here hcondition hmatches rfl,
          hturn.here hbody hmatches rfl, rfl, rfl, hturn.matches hmatches⟩ fun c σ' _ hc => hc
    | returned v => exact ends_ok (hσ₁.trans hσ₂) hc.1
  · exact ends_ok hσ₁ trivial

/-- Every task among `T` keeps the contract. -/
theorem Reach.Closed.holdsAmong (hclosed : V.Closed T) : (soundness V).HoldsAmong T := by
  intro t σ ht hpre
  obtain ⟨h, hready⟩ := hpre
  cases t with
  | eval e =>
      obtain ⟨ctx, e, hvisit, rfl, hmatches⟩ := hready
      exact ends_evalWork hclosed h hvisit hmatches ht
  | evalAll es =>
      obtain ⟨ctx, es, hvisit, rfl, hmatches⟩ := hready
      exact ends_evalAll hclosed h hvisit hmatches
  | call callee paren arguments => exact ends_call h paren hready.1 hready.2
  | apply callee arguments => exact ends_applyWork hclosed h hready.1 hready.2.1 hready.2.2 ht
  | invoke f arguments => exact ends_invoke hclosed h hready.1 hready.2.1 hready.2.2
  | scope body parent bindings => exact ends_scope hclosed h hready ht
  | execAll ss =>
      obtain ⟨ctx, ss, hvisit, rfl, hmatches⟩ := hready
      exact ends_execAll hclosed h hvisit hmatches
  | exec s =>
      obtain ⟨ctx, s, hvisit, rfl, hmatches⟩ := hready
      exact ends_execWork hclosed h hvisit hmatches ht
  | loop condition body => exact ends_loop h hready

/-- Every task keeps the contract for places that the walk visits. -/
theorem soundness_holds {V : Context → Place → Prop} (hwalked : Walked V) : (soundness V).Holds :=
  fun t σ => (hwalked.closed fun _ _ => True).holdsAmong t σ trivial

theorem follows_of_eval {V : Context → Place → Prop} (hwalked : Walked V) {σ : State}
    (h : σ.Sound V) {ctx : Context} {e : Expr Unit} (hvisit : V ctx (.expr e))
    (hmatches : Matches σ.scopes σ.env ctx.scopes) {n : Nat} {v : Value} {σ' : State}
    (hrun : (e.resolve ctx).eval n σ = .ok v σ') : Follows V σ σ' := by
  have hpre : (soundness V).pre (.eval (e.resolve ctx)) σ := ⟨h, ctx, e, hvisit, rfl, hmatches⟩
  have hend := (soundness_holds hwalked).run n hpre
  rw [Task.run, hrun] at hend
  exact hend.1

end Lox
