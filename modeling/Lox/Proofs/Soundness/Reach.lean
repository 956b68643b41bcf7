import Lox.Proofs.Eval.Contract
import Lox.Proofs.Resolution.WellFormed
import Lox.Proofs.Store.Scopes

/-!
# The scopes with which code is reached

The walk over a program puts new scopes around some of the places that it goes on to. At run time each
such step is taken by a task that creates a scope: for the body of a block or of a function that is
called, for `super` when a class is declared, for `this` when a method is bound to a receiver. So to
each place belong the scopes that were created on the way to it.
-/

namespace Lox

open Resolution Eval

/-- Which places are reached in which contexts, with which scopes: the innermost comes first, the
globals are left out. -/
abbrev Reach := List ScopeId → Context → Place → Prop

/-- Places in their contexts, whatever the scopes. -/
instance : Coe (Context → Place → Prop) Reach :=
  ⟨fun V _ => V⟩

/-- A task among `T` binds the method to a receiver, which creates the scope. -/
inductive BoundBy (T : Task → State → Prop) (f : Function) : ScopeId → Prop where
  | property {object : Expr Site} {name : Token} {before σ : State} {receiver : ObjectId}
      (ht : T (.eval (.get object name)) before)
      (hobject : Task.Gives (.eval object) before (.object receiver) σ)
      (hget : get (.object receiver) name σ =
        .ok (σ.boundMethod f receiver).1 (σ.boundMethod f receiver).2) :
      BoundBy T f σ.scopes.next
  | super {keyword method : Token} {site : Site} {σ : State} {receiver : ObjectId}
      (ht : T (.eval (.super keyword site method)) σ)
      (hsuper : Eval.super site method σ =
        .ok (σ.boundMethod f receiver).1 (σ.boundMethod f receiver).2) :
      BoundBy T f σ.scopes.next
  | construction {id : ClassId} {arguments : List Value} {σ : State}
      (ht : T (.apply (.class id) arguments) σ) (hinit : σ.method? id initName = some f) :
      BoundBy T f σ.scopes.next

/-- The innermost of the scopes. -/
def innermost (ids : List ScopeId) : ScopeId :=
  ids.headD State.globals

/-- A task among `T` goes on from a place that is reached with the scopes `outer` to one that is one
scope further in, and creates that scope. -/
inductive Opens (T : Task → State → Prop) (outer : List ScopeId) (ctx : Context) :
    Place → ScopeId → Context → Place → Prop where
  | body {p : Place} {inner : Context} {ss : List (Stmt Unit)} {frame : Frame} {σ : State}
      {bindings : Bindings Value} (hnext : (inner, .stmts ss) ∈ p.next ctx)
      (hinner : inner.scopes = frame :: p.around ctx)
      (ht : T (.scope (Stmt.resolveAll inner ss) (innermost outer) bindings) σ) :
      Opens T outer ctx p σ.scopes.next inner (.stmts ss)
  | superclass {name base : Token} {ds : List (FunctionDecl Unit)} {σ σ' : State} {id : ClassId}
      (ht : T (.exec ((Stmt.class name (some (base, ())) ds).resolve ctx)) σ)
      (henv : σ.env = innermost outer)
      (hbase : read base ((ctx.define name).locate base.lexeme)
        (σ.define σ.env name.lexeme .nil) = .ok (.class id) σ') :
      Opens T outer ctx (.stmt (.class name (some (base, ())) ds)) σ.scopes.next
        ((ctx.define name).inClass true) (.methods ds)
  | method {d : FunctionDecl Unit} {ds : List (FunctionDecl Unit)} {f : Function} {id : ScopeId}
      (hbinds : BoundBy T f id) (hclosure : f.closure = innermost outer)
      (hdecl : f.decl = d.resolve ctx (Context.methodKind d.name)) :
      Opens T outer ctx (.methods (d :: ds)) id ctx (.function (Context.methodKind d.name) d)

namespace Opens

variable {T : Task → State → Prop} {ids : List ScopeId} {id : ScopeId} {ctx ctx' : Context}
  {p p' : Place}

theorem mem_next (h : Opens T ids ctx p id ctx' p') : (ctx', p') ∈ p.next ctx := by
  cases h with
  | body hnext => exact hnext
  | superclass => exact List.mem_append_right _ List.mem_cons_self
  | method => exact List.mem_cons_self

/-- There is one scope more around the code than around the place from which it is visited. -/
theorem around (h : Opens T ids ctx p id ctx' p') (hhoused : p.Housed ctx) :
    ∃ first outer, p'.around ctx' = first :: outer ∧ DeclaresMore (p.around ctx) outer := by
  cases h with
  | body _ hinner => exact ⟨_, _, hinner, .refl _⟩
  | @superclass name => exact ⟨[(superName, true)], _, rfl, declaresMore_define ctx name⟩
  | method =>
      obtain ⟨outer, hscopes⟩ := hhoused
      refine ⟨[(thisName, true)], outer, hscopes, ?_⟩
      rw [Place.around, hscopes]
      exact .refl outer

end Opens

/-- Tasks among `T` come from one place, which is reached with some scopes, to another. -/
inductive Leads (T : Task → State → Prop) (ids : List ScopeId) (ctx : Context) (p : Place) :
    List ScopeId → Context → Place → Prop where
  | refl : Leads T ids ctx p ids ctx p
  | within {ids' : List ScopeId} {ctx₁ ctx₂ : Context} {p₁ p₂ : Place}
      (h : Leads T ids ctx p ids' ctx₁ p₁) (hp : (ctx₂, p₂) ∈ p₁.within ctx₁) :
      Leads T ids ctx p ids' ctx₂ p₂
  | opens {ids' : List ScopeId} {id : ScopeId} {ctx₁ ctx₂ : Context} {p₁ p₂ : Place}
      (h : Leads T ids ctx p ids' ctx₁ p₁) (hopens : Opens T ids' ctx₁ p₁ id ctx₂ p₂) :
      Leads T ids ctx p (id :: ids') ctx₂ p₂

namespace Leads

variable {T : Task → State → Prop} {ids ids' : List ScopeId} {ctx ctx' : Context} {p p' : Place}

theorem housed (h : Leads T ids ctx p ids' ctx' p') (hhoused : p.Housed ctx) : p'.Housed ctx' := by
  induction h with
  | refl => exact hhoused
  | within _ hp ih => exact ih.next _ (Place.mem_next_of_within hp)
  | opens _ hopens ih => exact ih.next _ hopens.mem_next

theorem visits {program : List (Stmt Unit)}
    (h : Leads T ids .top (.stmts program) ids' ctx' p') : Visits program ctx' p' := by
  induction h with
  | refl => exact .start
  | within _ hp ih => exact ih.next (Place.mem_next_of_within hp)
  | opens _ hopens ih => exact ih.next hopens.mem_next

end Leads

/-- On the way from one place to another a task among `T` created the scope: it went on to code with
the frame around it, the innermost in those outside, and that code leads to the other place. Since then
more names may have been declared there. -/
inductive Creates (T : Task → State → Prop) (ctx : Context) (p : Place) (scope : ScopeId)
    (frame : Frame) (outer : List Frame) (ids' : List ScopeId) (ctx' : Context) (p' : Place) :
    Prop where
  | intro {ids : List ScopeId} {ctx₁ ctx₂ : Context} {p₁ p₂ : Place} {first : Frame}
      (hreached : Leads T [] ctx p ids ctx₁ p₁) (hopens : Opens T ids ctx₁ p₁ scope ctx₂ p₂)
      (hleads : Leads T (scope :: ids) ctx₂ p₂ ids' ctx' p')
      (haround : p₂.around ctx₂ = first :: outer) (hfirst : first <:+ frame) :
      Creates T ctx p scope frame outer ids' ctx' p'

/-- Where code is reached from a place without scopes, each of its scopes was created on the way. -/
theorem Leads.creates {T : Task → State → Prop} {ctx ctx' : Context} {p p' : Place}
    {ids : List ScopeId} (h : Leads T [] ctx p ids ctx' p') (hhoused : p.Housed ctx) {d : Nat}
    {scope : ScopeId} (hscope : ids[d]? = some scope) :
    ∃ frame outer, (p'.around ctx').drop d = frame :: outer ∧
      Creates T ctx p scope frame outer ids ctx' p' := by
  induction h generalizing d with
  | refl => cases hscope
  | @within ids₂ ctx₃ ctx₄ p₃ p₄ _ hp ih =>
      obtain ⟨frame, outer, hdrop, hreached, hopens, hleads, haround, hfirst⟩ := ih hscope
      obtain ⟨frame', hdrop', hframe⟩ := (p₃.declaresMore_within ctx₃ _ hp).drop hdrop
      exact ⟨frame', outer, hdrop', hreached, hopens, hleads.within hp, haround,
        hfirst.trans hframe⟩
  | @opens ids₂ id ctx₃ ctx₄ p₃ p₄ h hopens ih =>
      obtain ⟨newest, around, haround₄, hmore⟩ := hopens.around (h.housed hhoused)
      cases d with
      | zero =>
          cases hscope
          exact ⟨newest, around, haround₄, h, hopens, .refl, haround₄, List.suffix_rfl⟩
      | succ d =>
          obtain ⟨frame, outer, hdrop, hreached, hopens', hleads, haround, hfirst⟩ := ih hscope
          obtain ⟨frame', hdrop', hframe⟩ := hmore.drop hdrop
          refine ⟨frame', outer, ?_, hreached, hopens', hleads.opens hopens, haround,
            hfirst.trans hframe⟩
          rw [haround₄]
          exact hdrop'

namespace Reach

/-- The place is reached with the scopes from `id` up. -/
def Here (V : Reach) (scopes : Scopes) (id : ScopeId) (ctx : Context) (p : Place) : Prop :=
  V (scopes.instances id (p.around ctx)) ctx p

/-- With each place those are reached that the walk goes on to, in the scopes that tasks among `T`
create. -/
structure Closed (V : Reach) (T : Task → State → Prop) : Prop where
  checked : ∀ {ids ctx p}, V ids ctx p → Place.Checked ctx p
  within : ∀ {ids ctx p ctx' p'}, V ids ctx p → (ctx', p') ∈ p.within ctx → V ids ctx' p'
  opens : ∀ {ids ctx p id ctx' p'}, V ids ctx p → Opens T ids ctx p id ctx' p' →
    V (id :: ids) ctx' p'

variable {V : Reach} {T : Task → State → Prop} {scopes : Scopes} {id : ScopeId} {ctx ctx' : Context}
  {p p' : Place}

theorem Closed.here (h : V.Closed T) (hvisit : V.Here scopes id ctx p)
    (hp : (ctx', p') ∈ p.within ctx) : V.Here scopes id ctx' p' := by
  have hwithin := h.within hvisit hp
  have hlength := (p.declaresMore_within ctx _ hp).length_eq
  rwa [← scopes.instances_congr id hlength] at hwithin

end Reach

/-- Places that are visited, in checked contexts, and with each of them those visited from it. -/
structure Walked (V : Context → Place → Prop) : Prop where
  checked : ∀ {ctx p}, V ctx p → Place.Checked ctx p
  next : ∀ {ctx p ctx' p'}, V ctx p → (ctx', p') ∈ p.next ctx → V ctx' p'

/-- Where the walk goes on is reached, whatever the scopes. -/
theorem Walked.closed {V : Context → Place → Prop} (hwalked : Walked V)
    (T : Task → State → Prop) : Reach.Closed V T where
  checked := hwalked.checked
  within h hp := hwalked.next h (Place.mem_next_of_within hp)
  opens h hopens := hwalked.next h hopens.mem_next

end Lox
