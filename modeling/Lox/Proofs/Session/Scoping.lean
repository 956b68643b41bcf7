import Lox.Proofs.Session.Trace

/-!
# Scopes in the text and at run time

Names are bound by a walk over the text and looked up in scopes at run time. Whenever code is
entered, in any step of a session, the two agree: the scopes at hand are instances of the scopes
that were around the code when it was visited, each created by the task that went on to the code
within it. So a name is found at its distance, in the scope that declares it.
-/

namespace Lox.Session

open Resolution Eval

/-- The tasks lead to the place from the beginning of an accepted source, with these scopes. -/
def Reaches (steps : List Step) (tasks : List (Task × State)) (ids : List ScopeId) (ctx : Context)
    (p : Place) : Prop :=
  ∃ source, Step.run source ∈ steps ∧ Accepted source ∧
    Leads (fun t σ => (t, σ) ∈ tasks) [] .top (.stmts (Reading.ofSource source).program) ids ctx p

/-- The scope was created by one of the tasks, on the way from the beginning of an accepted source to
the place, when it went on to code with the frame around it. -/
def CreatedFor (steps : List Step) (tasks : List (Task × State)) (scope : ScopeId) (frame : Frame)
    (outer : List Frame) (ids : List ScopeId) (ctx : Context) (p : Place) : Prop :=
  ∃ source, Step.run source ∈ steps ∧ Accepted source ∧
    Creates (fun t σ => (t, σ) ∈ tasks) .top (.stmts (Reading.ofSource source).program) scope frame
      outer ids ctx p

/-- The tasks lead to the place with the scopes that are at hand, and each of these was created for the
frame that is as far out. -/
structure Situated (steps : List Step) (tasks : List (Task × State)) (σ : State) (ctx : Context)
    (p : Place) : Prop where
  reached : Reaches steps tasks (σ.scopes.instances σ.env ctx.scopes) ctx p
  created : ∀ d frame outer, ctx.scopes.drop d = frame :: outer →
    ∃ scope, σ.scopes.ancestor? σ.env d = some scope ∧
      CreatedFor steps tasks scope frame outer (σ.scopes.instances σ.env ctx.scopes) ctx p

/-- `scope` lies that many parents up and is the instance of the innermost scope around the code
that declares the name: it was created for that one. -/
structure Declares (steps : List Step) (tasks : List (Task × State)) (σ : State) (ctx : Context)
    (p : Place) (name : Bytes) (distance : Nat) (scope : ScopeId) : Prop where
  ancestor : σ.scopes.ancestor? σ.env distance = some scope
  isLocal : scope ≠ State.globals
  innermost : ∃ frame, ctx.scopes[distance]? = some frame ∧ (frame.lookup name).isSome ∧
    ∀ inner < distance, ∀ other, ctx.scopes[inner]? = some other → other.lookup name = none
  matching : Matches σ.scopes scope (ctx.scopes.drop distance)
  created : ∃ frame outer, ctx.scopes.drop distance = frame :: outer ∧
    CreatedFor steps tasks scope frame outer (σ.scopes.instances σ.env ctx.scopes) ctx p

/-- A use with a distance goes to the scope that declares its name; a variable is bound there. A use
without one goes to the globals alone. -/
def UseAgrees (steps : List Step) (tasks : List (Task × State)) (σ : State) (ctx : Context)
    (node : Expr Unit) : Expr Site → Prop
  | .read name (some distance) =>
      ∃ scope v, Declares steps tasks σ ctx (.expr node) name.lexeme distance scope ∧
        σ.scopes.bound? scope name.lexeme = some v ∧
        ∀ n, (Expr.read name (some distance)).eval (n + 1) σ = .ok v σ
  | .this keyword (some distance) =>
      ∃ scope v, Declares steps tasks σ ctx (.expr node) keyword.lexeme distance scope ∧
        σ.scopes.bound? scope keyword.lexeme = some v ∧
        ∀ n, (Expr.this keyword (some distance)).eval (n + 1) σ = .ok v σ
  | .assign name (some distance) value =>
      ∃ scope, Declares steps tasks σ ctx (.expr node) name.lexeme distance scope ∧
        ∀ n v σ', value.eval n σ = .ok v σ' →
          (Expr.assign name (some distance) value).eval (n + 1) σ =
            .ok v (σ'.define scope name.lexeme v)
  | .read name none =>
      ∀ n, (Expr.read name none).eval (n + 1) σ =
        match σ.scopes.bound? State.globals name.lexeme with
        | some v => .ok v σ
        | none => .error (.undefined name) σ
  | .assign name none value =>
      ∀ n v σ', value.eval n σ = .ok v σ' →
        (Expr.assign name none value).eval (n + 1) σ =
          match σ'.scopes.bound? State.globals name.lexeme with
          | some _ => .ok v (σ'.define State.globals name.lexeme v)
          | none => .error (.undefined name) σ'
  | .this _ none => False
  | _ => True

/-- The superclass of a class is read when the name of the class is bound. -/
def SuperclassAgrees (steps : List Step) (tasks : List (Task × State)) (σ : State) (ctx : Context) :
    Stmt Site → Prop
  | .class name (some (base, site)) _ =>
      Matches (σ.define σ.env name.lexeme .nil).scopes σ.env (ctx.define name).scopes ∧
        UseAgrees steps tasks (σ.define σ.env name.lexeme .nil) (ctx.define name) (.read base ())
          (.read base site)
  | _ => True

/-- Code that is entered was visited in an accepted source of the session, in a context of which the
scopes at hand are instances. -/
def Agrees (steps : List Step) (tasks : List (Task × State)) (σ : State) : Task → Prop
  | .eval e => ∃ ctx node, Visited steps ctx (.expr node) ∧ e = node.resolve ctx ∧
      Matches σ.scopes σ.env ctx.scopes ∧ Situated steps tasks σ ctx (.expr node) ∧
      UseAgrees steps tasks σ ctx node e
  | .exec s => ∃ ctx node, Visited steps ctx (.stmt node) ∧ s = node.resolve ctx ∧
      Matches σ.scopes σ.env ctx.scopes ∧ Situated steps tasks σ ctx (.stmt node) ∧
      SuperclassAgrees steps tasks σ ctx s
  | _ => True

/-! ### What is reached -/

section Reaches

variable {steps : List Step} {tasks : List (Task × State)} {ids : List ScopeId} {σ : State}
  {ctx : Context} {p : Place}

theorem Reaches.visited (h : Reaches steps tasks ids ctx p) : Visited steps ctx p := by
  obtain ⟨source, hmem, haccepted, hleads⟩ := h
  exact ⟨source, hmem, haccepted, hleads.visits⟩

theorem hosts_reaches (steps : List Step) (tasks : List (Task × State)) :
    Hosts steps (Reaches steps tasks) fun t σ => (t, σ) ∈ tasks where
  checked h := (walked_visited steps).checked h.visited
  within := by
    rintro ids ctx p ctx' p' ⟨source, hmem, haccepted, hleads⟩ hp
    exact ⟨source, hmem, haccepted, hleads.within hp⟩
  opens := by
    rintro ids ctx p id ctx' p' ⟨source, hmem, haccepted, hleads⟩ hopens
    exact ⟨source, hmem, haccepted, hleads.opens hopens⟩
  start hmem haccepted := ⟨_, hmem, haccepted, .refl⟩

theorem Reaches.situated (h : Reaches steps tasks (σ.scopes.instances σ.env ctx.scopes) ctx p)
    (hmatches : Matches σ.scopes σ.env ctx.scopes) (haround : p.around ctx = ctx.scopes) :
    Situated steps tasks σ ctx p where
  reached := h
  created d frame outer hdrop := by
    have hlt : d < ctx.scopes.length := by
      refine Nat.lt_of_not_le fun hle => ?_
      rw [List.drop_eq_nil_of_le hle] at hdrop
      cases hdrop
    obtain ⟨scope, hscope, -⟩ := hmatches.ancestor hlt
    obtain ⟨source, hmem, haccepted, hleads⟩ := h
    obtain ⟨frame', outer', hdrop', hcreates⟩ :=
      hleads.creates trivial ((hmatches.getElem?_instances hlt).trans hscope)
    rw [haround, hdrop] at hdrop'
    cases hdrop'
    exact ⟨scope, hscope, source, hmem, haccepted, hcreates⟩

end Reaches

theorem declares_of_locate {steps : List Step} {tasks : List (Task × State)} {σ : State}
    {ctx : Context} {p : Place} {name : Bytes} {distance : Nat}
    (hsituated : Situated steps tasks σ ctx p) (hmatches : Matches σ.scopes σ.env ctx.scopes)
    (h : ctx.locate name = some distance) :
    ∃ scope, Declares steps tasks σ ctx p name distance scope := by
  obtain ⟨hlt, hdeclares, hothers⟩ := List.findIdx?_eq_some_iff_getElem.mp h
  obtain ⟨scope, hscope, hlocal, hmatching⟩ := hmatches.ancestor hlt
  have hdrop := List.drop_eq_getElem_cons hlt
  obtain ⟨scope', hscope', hcreated⟩ := hsituated.created _ _ _ hdrop
  obtain rfl : scope = scope' := Option.some.inj (hscope.symm.trans hscope')
  refine ⟨scope, hscope, hlocal, ⟨_, List.getElem?_eq_getElem hlt, hdeclares, ?_⟩, hmatching,
    _, _, hdrop, hcreated⟩
  intro inner hinner other hother
  have hnone := hothers inner hinner
  obtain ⟨hlt', rfl⟩ := List.getElem?_eq_some_iff.mp hother
  exact Option.not_isSome_iff_eq_none.mp hnone

section Uses

variable {steps : List Step} {tasks : List (Task × State)} {σ : State} {ctx : Context}
  {node : Expr Unit}

theorem declares_of_readyAt {name : Token} {distance : Nat}
    (hsituated : Situated steps tasks σ ctx (.expr node))
    (hmatches : Matches σ.scopes σ.env ctx.scopes)
    (hready : ReadyAt name.lexeme distance ctx.scopes) :
    ∃ scope v, Declares steps tasks σ ctx (.expr node) name.lexeme distance scope ∧
      σ.scopes.bound? scope name.lexeme = some v ∧ read name (some distance) σ = .ok v σ := by
  obtain ⟨scope, hscope⟩ := declares_of_locate hsituated hmatches hready.locate
  obtain ⟨scope', v, hscope', -, hv⟩ := hmatches.readyAt hready
  obtain rfl : scope = scope' := Option.some.inj (hscope.ancestor.symm.trans hscope')
  refine ⟨scope, v, hscope, hv, ?_⟩
  simp only [Eval.read, Scopes.getAt?_of_bound? hscope' hv]

theorem useAgrees_read (h : σ.Sound (Visited steps)) {name : Token}
    (hchecked : Place.Checked ctx (.expr (.read name ())))
    (hsituated : Situated steps tasks σ ctx (.expr (.read name ())))
    (hmatches : Matches σ.scopes σ.env ctx.scopes) :
    UseAgrees steps tasks σ ctx (.read name ()) (.read name (ctx.locate name.lexeme)) := by
  cases hlocate : ctx.locate name.lexeme with
  | none =>
      intro n
      rw [Expr.eval]
      exact read_global h name
  | some distance =>
      obtain ⟨scope, v, hscope, hv, hread⟩ :=
        declares_of_readyAt hsituated hmatches (hchecked.readyAt hlocate)
      refine ⟨scope, v, hscope, hv, fun n => ?_⟩
      rw [Expr.eval]
      exact hread

theorem useAgrees_this {keyword : Token}
    (hchecked : Place.Checked ctx (.expr (.this keyword ())))
    (hsituated : Situated steps tasks σ ctx (.expr (.this keyword ())))
    (hmatches : Matches σ.scopes σ.env ctx.scopes) :
    UseAgrees steps tasks σ ctx (.this keyword ()) (.this keyword (ctx.locateThis keyword)) := by
  obtain ⟨hname, distance, hlocate, hready⟩ := hchecked.this
  rw [← hname] at hready
  rw [hlocate]
  obtain ⟨scope, v, hscope, hv, hread⟩ := declares_of_readyAt hsituated hmatches hready
  refine ⟨scope, v, hscope, hv, fun n => ?_⟩
  rw [Expr.eval]
  exact hread

theorem useAgrees_assign (h : σ.Sound (Visited steps)) {name : Token} {value : Expr Unit}
    (hvisit : Visited steps ctx (.expr value))
    (hsituated : Situated steps tasks σ ctx (.expr (.assign name () value)))
    (hmatches : Matches σ.scopes σ.env ctx.scopes) :
    UseAgrees steps tasks σ ctx (.assign name () value)
      (.assign name (ctx.locate name.lexeme) (value.resolve ctx)) := by
  have hwalked := walked_visited steps
  cases hlocate : ctx.locate name.lexeme with
  | none =>
      intro n v σ' hrun
      simp only [Expr.eval, hrun, Outcome.bind]
      exact assign_global (follows_of_eval hwalked h hvisit hmatches hrun).sound name v
  | some distance =>
      obtain ⟨scope, hscope⟩ := declares_of_locate hsituated hmatches hlocate
      refine ⟨scope, hscope, fun n v σ' hrun => ?_⟩
      simp only [Expr.eval, hrun, Outcome.bind]
      have hfollows := follows_of_eval hwalked h hvisit hmatches hrun
      exact hfollows.assign_local hmatches hlocate hscope.ancestor v

theorem superclassAgrees (h : σ.Sound (Visited steps)) {s : Stmt Unit}
    (hreach : Reach.Here (Reaches steps tasks) σ.scopes σ.env ctx (.stmt s))
    (hmatches : Matches σ.scopes σ.env ctx.scopes) :
    SuperclassAgrees steps tasks σ ctx (s.resolve ctx) := by
  have hwalked := walked_visited steps
  have hclosed := (hosts_reaches steps tasks).toClosed
  match s with
  | .class name (some (base, ())) ds =>
      have hname : Plain name.lexeme := (hwalked.checked hreach.visited).wellFormed.fine
      have hgrows := Scopes.grows_define σ.scopes σ.env name.lexeme .nil
      have hdefined : Matches (σ.define σ.env name.lexeme .nil).scopes σ.env
          (ctx.define name).scopes := hmatches.define name .nil
      have hfollows : Follows (Visited steps) σ (σ.define σ.env name.lexeme .nil) :=
        h.follows_define σ.env trivial hname
      have hbase : Reach.Here (Reaches steps tasks) σ.scopes σ.env (ctx.define name)
          (.expr (.read base ())) :=
        hclosed.here hreach (by simp [Place.within, Place.superclass])
      have hbase' := hbase.grows hgrows hmatches (length_define ctx name).symm
      exact ⟨hdefined, useAgrees_read hfollows.sound (hclosed.checked hbase)
        (Reaches.situated hbase' hdefined rfl) hdefined⟩
  | .class name none ds => trivial
  | .block _ | .expr _ | .function _ | .ifThen _ _ | .ifElse _ _ _ | .print _ | .return _ _
  | .var _ _ | .while _ _ => trivial

end Uses

/-- Every task is set off where the tasks of the session have led to. -/
theorem reached_of_trace (clock : List Int) (fuel : Nat) (steps : List Step) :
    ∀ p ∈ (start clock).trace fuel steps,
      (soundness (Reaches steps ((start clock).trace fuel steps))).pre p.1 p.2 :=
  (hosts_reaches steps ((start clock).trace fuel steps)).pre_of_trace fuel steps
    (fun _ hstep => hstep) (sound_start clock _) fun _ hp => hp

/-- In every session, whenever an expression is evaluated or a statement executed, the chain of
scopes up to the globals corresponds one to one to the scopes around that node when it was visited:
each was created when the code was entered around which the walk has put that one. And uses of names
are found where they were declared. -/
theorem scopes_agree (clock : List Int) (fuel : Nat) (steps : List Step) (t : Task) (σ : State)
    (h : (t, σ) ∈ (start clock).trace fuel steps) :
    Agrees steps ((start clock).trace fuel steps) σ t := by
  obtain ⟨hsound, -⟩ :=
    pre_of_trace fuel steps (fun _ hstep => hstep) (sound_start clock _) (t, σ) h
  obtain ⟨-, hready⟩ := reached_of_trace clock fuel steps (t, σ) h
  have hwalked := walked_visited steps
  cases t with
  | eval e =>
      obtain ⟨ctx, node, hreach, rfl, hmatches⟩ := hready
      have hvisit := Reaches.visited hreach
      have hsituated := Reaches.situated hreach hmatches rfl
      refine ⟨ctx, node, hvisit, rfl, hmatches, hsituated, ?_⟩
      have hchecked := hwalked.checked hvisit
      cases node with
      | read name site => exact useAgrees_read hsound hchecked hsituated hmatches
      | this keyword site => exact useAgrees_this hchecked hsituated hmatches
      | assign name site value =>
          exact useAgrees_assign hsound
            (hwalked.next hvisit (by simp [Place.next, Place.operands])) hsituated hmatches
      | _ => trivial
  | exec s =>
      obtain ⟨ctx, node, hreach, rfl, hmatches⟩ := hready
      exact ⟨ctx, node, Reaches.visited hreach, rfl, hmatches,
        Reaches.situated hreach hmatches rfl, superclassAgrees hsound hreach hmatches⟩
  | _ => trivial

/-- The task reads the name of a local variable. -/
def readsAt (name : Bytes) (distance : Nat) : Task → Bool
  | .eval (.read token site) => token.lexeme == name && site == some distance
  | _ => false

/-- A function is kept by a global after its block has ended. When a later source calls it, the
variable of that block is read one scope out of its body. -/
theorem scopes_agree_kept_closure :
    let steps : List Step :=
      [.run (bytes "var g;{var a;fun f(){return a;}g=f;}"), .run (bytes "g();")]
    ∃ t σ, (t, σ) ∈ (start []).trace 12 steps ∧ readsAt (bytes "a") 1 t = true ∧
      Agrees steps ((start []).trace 12 steps) σ t := by
  intro steps
  have hread : ((start []).trace 12 steps).any (fun p => readsAt (bytes "a") 1 p.1) = true := by
    decide +kernel
  obtain ⟨⟨t, σ⟩, hmem, ht⟩ := List.any_eq_true.mp hread
  exact ⟨t, σ, hmem, ht, scopes_agree [] 12 steps t σ hmem⟩

end Lox.Session
