import Lox.Eval.Outcome
import Lox.Proofs.Loop.Contexts
import Lox.Proofs.Eval.Lockstep
import Lox.Proofs.Soundness.Declarations

/-!
# States with spare scopes

Two states of one shape. The second one has spare scopes besides those of the first one. Functions in
the two were made from the same declarations, bound in contexts that differ by the frames of the
spare scopes.
-/

namespace Lox

open Resolution

/-! ### Functions and classes -/

/-- Two contexts of one declaration. Behind the innermost frames, which are the same, the scopes in
which it is closed are instances of them. -/
structure Enclosed (φ : Placement) (scopes scopes' : Scopes) (lead : List Frame) (ctx ctx' : Context)
    (id id' : ScopeId) : Prop where
  classKind : ctx'.classKind = ctx.classKind
  scopes : ∃ outer outer', ctx.scopes = lead ++ outer ∧ ctx'.scopes = lead ++ outer' ∧
    Scopes.Beside φ scopes scopes' outer outer' id id'

/-- One declaration, bound in two contexts. That of a method stands in one more frame, whose scope
is created when it is bound to a receiver. -/
structure Function.Padded (V : Context → Place → Prop) (φ : Placement) (scopes scopes' : Scopes)
    (lead : List Frame) (f f' : Function) : Prop where
  closure : f'.closure = φ f.closure
  isInitializer : f'.isInitializer = f.isInitializer
  code : ∃ kind d ctx ctx', V ctx' (.function kind d) ∧ f.decl = d.resolve ctx kind ∧
    f'.decl = d.resolve ctx' kind ∧
    Enclosed φ scopes scopes' lead ctx ctx' f.closure f'.closure

/-- The frame of the receiver. -/
abbrev thisFrame : Frame :=
  [(thisName, true)]

/-- Methods that are not yet bound to a receiver. -/
abbrev Method.Padded (V : Context → Place → Prop) (φ : Placement) (scopes scopes' : Scopes) :
    Function → Function → Prop :=
  Function.Padded V φ scopes scopes' [thisFrame]

section

variable {V : Context → Place → Prop} {φ φ₁ : Placement}
  {scopes scopes' scopes₁ scopes₁' : Scopes} {lead : List Frame} {ctx ctx' : Context}
  {id id' : ScopeId}

theorem Alongside.enclosed (h : Alongside φ scopes scopes' ctx ctx' id id') :
    Enclosed φ scopes scopes' [] ctx ctx' id id' :=
  ⟨h.classKind, ctx.scopes, ctx'.scopes, rfl, rfl, h.scopes⟩

theorem Enclosed.alongside (h : Enclosed φ scopes scopes' [] ctx ctx' id id') :
    Alongside φ scopes scopes' ctx ctx' id id' := by
  obtain ⟨hkind, outer, outer', houter, houter', hbeside⟩ := h
  refine ⟨hkind, ?_⟩
  rw [houter, houter']
  exact hbeside

theorem Enclosed.onward (h : Enclosed φ scopes scopes' lead ctx ctx' id id')
    (honward : Scopes.Onward φ scopes scopes' φ₁ scopes₁ scopes₁') :
    Enclosed φ₁ scopes₁ scopes₁' lead ctx ctx' id id' := by
  obtain ⟨hkind, outer, outer', houter, houter', hbeside⟩ := h
  exact ⟨hkind, outer, outer', houter, houter', hbeside.onward honward⟩

theorem Enclosed.inside (h : Enclosed φ scopes scopes' lead ctx ctx' id id')
    (hpos : 0 < scopes.next) : id < scopes.next := by
  obtain ⟨outer, outer', -, -, hbeside⟩ := h.scopes
  exact hbeside.inside hpos

theorem Function.Padded.onward {f f' : Function} (h : f.Padded V φ scopes scopes' lead f')
    (honward : Scopes.Onward φ scopes scopes' φ₁ scopes₁ scopes₁') (hpos : 0 < scopes.next) :
    f.Padded V φ₁ scopes₁ scopes₁' lead f' := by
  obtain ⟨kind, d, ctx, ctx', hvisit, hdecl, hdecl', henclosed⟩ := h.code
  refine ⟨?_, h.isInitializer, kind, d, ctx, ctx', hvisit, hdecl, hdecl', henclosed.onward honward⟩
  rw [honward.same f.closure (henclosed.inside hpos)]
  exact h.closure

theorem Function.Padded.sameSignature (f f' : Function) (h : f.Padded V φ scopes scopes' lead f') :
    f.SameSignature f' := by
  obtain ⟨kind, d, ctx, ctx', -, hdecl, hdecl', -⟩ := h.code
  constructor
  · rw [hdecl, hdecl', name_resolve, name_resolve]
  · rw [hdecl, hdecl', params_resolve, params_resolve]

end

/-! ### States -/

structure State.Padded (V : Context → Place → Prop) (φ : Placement) (σ σ' : State) : Prop
    extends σ.SideBySide (Function.Padded V φ σ.scopes σ'.scopes [])
      (Method.Padded V φ σ.scopes σ'.scopes) σ' where
  scopes : σ.scopes.Padded φ σ'.scopes

/-- What two computations leave of their states: scopes were created, and those at hand are the
same. -/
structure State.Onward (φ : Placement) (σ σ' : State) (φ₁ : Placement) (σ₁ σ₁' : State) : Prop where
  scopes : Scopes.Onward φ σ.scopes σ'.scopes φ₁ σ₁.scopes σ₁'.scopes
  env : σ₁.env = σ.env
  env' : σ₁'.env = σ'.env

/-- The scopes at hand are instances of the two contexts. -/
abbrev State.Inside (φ : Placement) (σ σ' : State) (ctx ctx' : Context) : Prop :=
  Alongside φ σ.scopes σ'.scopes ctx ctx' σ.env σ'.env

section

variable {φ φ₁ φ₂ : Placement} {σ σ' σ₁ σ₁' σ₂ σ₂' : State} {ctx ctx' : Context}

theorem State.Onward.refl (φ : Placement) (σ σ' : State) : State.Onward φ σ σ' φ σ σ' :=
  ⟨.refl φ σ.scopes σ'.scopes, rfl, rfl⟩

theorem State.Onward.of_scopes (φ : Placement) (h : σ₁.scopes = σ.scopes)
    (h' : σ₁'.scopes = σ'.scopes) (henv : σ₁.env = σ.env) (henv' : σ₁'.env = σ'.env) :
    State.Onward φ σ σ' φ σ₁ σ₁' := by
  refine ⟨?_, henv, henv'⟩
  rw [h, h']
  exact .refl φ σ.scopes σ'.scopes

theorem State.Onward.trans (h : State.Onward φ σ σ' φ₁ σ₁ σ₁')
    (h' : State.Onward φ₁ σ₁ σ₁' φ₂ σ₂ σ₂') : State.Onward φ σ σ' φ₂ σ₂ σ₂' :=
  ⟨h.scopes.trans h'.scopes, h'.env.trans h.env, h'.env'.trans h.env'⟩

theorem State.Onward.inside (h : State.Onward φ σ σ' φ₁ σ₁ σ₁')
    (hinside : σ.Inside φ σ' ctx ctx') : σ₁.Inside φ₁ σ₁' ctx ctx' := by
  rw [State.Inside, h.env, h.env']
  exact Alongside.onward hinside h.scopes

/-- A scope at hand that stands in both states stays where it is. -/
theorem State.Onward.stands (h : State.Onward φ σ σ' φ₁ σ₁ σ₁') (hid : σ.env < σ.scopes.next)
    (hstands : σ'.env = φ σ.env) : σ₁'.env = φ₁ σ₁.env := by
  rw [h.env, h.env', h.scopes.same σ.env hid, hstands]

end

namespace State.Padded

variable {V : Context → Place → Prop} {φ φ₁ : Placement} {σ σ' : State}

/-- A sound state has no spare scopes beside itself. -/
theorem self (hwalked : Walked V) (h : σ.Sound V) : σ.Padded V .same σ where
  scopes := .self h.nonempty
  functions := by
    refine .self fun f hf => ?_
    obtain ⟨ctx, kind, d, hvisit, hdecl, -, hmatches⟩ := h.functions f hf
    exact ⟨rfl, rfl, kind, d, ctx, ctx, hvisit, hdecl, hdecl,
      rfl, ctx.scopes, ctx.scopes, rfl, rfl, .self hmatches⟩
  classes := by
    refine .self fun c hc => ⟨rfl, rfl, fun n => ?_⟩
    cases hn : c.methods.lookup n with
    | none => exact .none
    | some f =>
        obtain ⟨⟨ctx, d, ds, outer, hvisit, hdecl, -, hscopes, hmatches⟩, -⟩ :=
          h.classes c hc n f hn
        exact .some ⟨rfl, rfl, Context.methodKind d.name, d, ctx, ctx,
          hwalked.next hvisit List.mem_cons_self, hdecl, hdecl, rfl, outer, outer, hscopes, hscopes,
          .self hmatches⟩
  objects := rfl
  depth := rfl
  clock := rfl
  printed := rfl

/-- Functions and classes stay what they are when scopes are created or changed. -/
theorem withScopes (h : σ.Padded V φ σ') {after after' : Scopes} (hafter : after.Padded φ₁ after')
    (honward : Scopes.Onward φ σ.scopes σ'.scopes φ₁ after after') :
    ({ σ with scopes := after } : State).Padded V φ₁ { σ' with scopes := after' } where
  toSideBySide := h.toSideBySide.withScopes (fun _ _ hf => hf.onward honward h.scopes.nonempty)
    (fun _ _ hf => hf.onward honward h.scopes.nonempty) after after'
  scopes := hafter

theorem withEnv (h : σ.Padded V φ σ') (env env' : ScopeId) :
    ({ σ with env := env } : State).Padded V φ { σ' with env := env' } :=
  { h with }

theorem withObjects (h : σ.Padded V φ σ') (objects : Array Object) :
    ({ σ with objects := objects } : State).Padded V φ { σ' with objects := objects } :=
  { h with objects := rfl }

theorem withDepth (h : σ.Padded V φ σ') (f : Nat → Nat) :
    ({ σ with depth := f σ.depth } : State).Padded V φ { σ' with depth := f σ'.depth } :=
  { h with depth := congrArg f h.depth }

theorem define (h : σ.Padded V φ σ') {id : ScopeId} (hid : id < σ.scopes.next) (n : Bytes)
    (v : Value) : (σ.define id n v).Padded V φ (σ'.define (φ id) n v) :=
  h.withScopes (h.scopes.define hid n v) (Scopes.onward_define φ σ.scopes σ'.scopes id (φ id) n v)

/-- Where the scopes stand when one is created in both states. -/
abbrev placing (φ : Placement) (σ σ' : State) : Placement :=
  Function.update φ σ.scopes.next σ'.scopes.next

theorem newScope (h : σ.Padded V φ σ') (parent parent' : ScopeId) (bindings : Bindings Value) :
    (σ.newScope parent bindings).2.Padded V (placing φ σ σ') (σ'.newScope parent' bindings).2 :=
  h.withScopes (h.scopes.push (some parent) (some parent') bindings)
    (Scopes.onward_push φ σ.scopes σ'.scopes (some parent) (some parent') bindings)

theorem enter (h : σ.Padded V φ σ') (parent parent' : ScopeId) (bindings : Bindings Value) :
    (σ.enter parent bindings).Padded V (placing φ σ σ') (σ'.enter parent' bindings) :=
  (h.newScope parent parent' bindings).withEnv σ.scopes.next σ'.scopes.next

/-- A spare scope is entered. -/
theorem enterSpare (h : σ.Padded V φ σ') (parent' : ScopeId) :
    σ.Padded V φ (σ'.enter parent' []) := by
  have hspare := h.withScopes (h.scopes.pushSpare (some parent'))
    (Scopes.onward_pushSpare φ σ.scopes σ'.scopes (some parent'))
  exact hspare.withEnv σ.env σ'.scopes.next

theorem newFunction (h : σ.Padded V φ σ') {f f' : Function}
    (hf : f.Padded V φ σ.scopes σ'.scopes [] f') :
    (σ'.newFunction f').1 = (σ.newFunction f).1 ∧
      (σ.newFunction f).2.Padded V φ (σ'.newFunction f').2 :=
  ⟨h.functions.size, { h with functions := h.functions.push hf }⟩

theorem newClass (h : σ.Padded V φ σ') {c c' : Class}
    (hc : c.SideBySide (Method.Padded V φ σ.scopes σ'.scopes) c') :
    (σ'.newClass c').1 = (σ.newClass c).1 ∧ (σ.newClass c).2.Padded V φ (σ'.newClass c').2 :=
  ⟨h.classes.size, { h with classes := h.classes.push hc }⟩

theorem print (h : σ.Padded V φ σ') (text : Bytes) :
    (σ.print text).Padded V φ (σ'.print text) :=
  { h with printed := congrArg (text :: ·) h.printed }

end State.Padded

/-! ### Computations -/

/-- Two computations end in the same way, and their states are the same but for spare scopes. -/
inductive Outcome.Padded (V : Context → Place → Prop) (φ : Placement) (σ σ' : State) {α : Type} :
    Outcome α → Outcome α → Prop where
  | ok {a : α} {φ₁ : Placement} {σ₁ σ₁' : State} (honward : State.Onward φ σ σ' φ₁ σ₁ σ₁')
      (h : σ₁.Padded V φ₁ σ₁') : Outcome.Padded V φ σ σ' (.ok a σ₁) (.ok a σ₁')
  | error {e : RuntimeError} {φ₁ : Placement} {σ₁ σ₁' : State}
      (honward : State.Onward φ σ σ' φ₁ σ₁ σ₁') (h : σ₁.Padded V φ₁ σ₁') :
      Outcome.Padded V φ σ σ' (.error e σ₁) (.error e σ₁')
  | broken {σ₁ σ₁' : State} : Outcome.Padded V φ σ σ' (.broken σ₁) (.broken σ₁')
  | outOfFuel : Outcome.Padded V φ σ σ' .outOfFuel .outOfFuel

section

variable {V : Context → Place → Prop} {φ φ₁ : Placement} {σ σ' σ₁ σ₁' : State} {α β : Type}

theorem Outcome.Padded.after {o o' : Outcome α} (h : o.Padded V φ₁ σ₁ σ₁' o')
    (honward : State.Onward φ σ σ' φ₁ σ₁ σ₁') : o.Padded V φ σ σ' o' := by
  cases h with
  | ok honward' hσ₂ => exact .ok (honward.trans honward') hσ₂
  | error honward' hσ₂ => exact .error (honward.trans honward') hσ₂
  | broken => exact .broken
  | outOfFuel => exact .outOfFuel

theorem Outcome.Padded.bind {o o' : Outcome α} (h : o.Padded V φ σ σ' o')
    {f f' : α → State → Outcome β}
    (hf : ∀ a φ₁ σ₁ σ₁', State.Onward φ σ σ' φ₁ σ₁ σ₁' → σ₁.Padded V φ₁ σ₁' →
      (f a σ₁).Padded V φ₁ σ₁ σ₁' (f' a σ₁')) :
    (o.bind f).Padded V φ σ σ' (o'.bind f') := by
  cases h with
  | ok honward hσ₁ => exact (hf _ _ _ _ honward hσ₁).after honward
  | error honward hσ₁ => exact .error honward hσ₁
  | broken => exact .broken
  | outOfFuel => exact .outOfFuel

/-- Computations that were set off in other states, and what is done when they are left. -/
theorem Outcome.Padded.leaving {o o' : Outcome α} (h : o.Padded V φ₁ σ₁ σ₁' o')
    {g g' : State → State}
    (hg : ∀ φ₂ σ₂ σ₂', State.Onward φ₁ σ₁ σ₁' φ₂ σ₂ σ₂' → σ₂.Padded V φ₂ σ₂' →
      State.Onward φ σ σ' φ₂ (g σ₂) (g' σ₂') ∧ (g σ₂).Padded V φ₂ (g' σ₂')) :
    (o.leaving g).Padded V φ σ σ' (o'.leaving g') := by
  cases h with
  | ok honward hσ₂ =>
      obtain ⟨hleft, hstate⟩ := hg _ _ _ honward hσ₂
      exact .ok hleft hstate
  | error honward hσ₂ =>
      obtain ⟨hleft, hstate⟩ := hg _ _ _ honward hσ₂
      exact .error hleft hstate
  | broken => exact .broken
  | outOfFuel => exact .outOfFuel

theorem State.Padded.ok (h : σ.Padded V φ σ') (a : α) :
    Outcome.Padded V φ σ σ' (.ok a σ) (.ok a σ') :=
  .ok (.refl φ σ σ') h

theorem State.Padded.error (h : σ.Padded V φ σ') (e : RuntimeError) :
    Outcome.Padded V φ σ σ' (.error e σ : Outcome α) (.error e σ') :=
  .error (.refl φ σ σ') h

theorem State.Padded.ok_define (h : σ.Padded V φ σ') (a : α) {id : ScopeId}
    (hid : id < σ.scopes.next) (n : Bytes) (v : Value) :
    Outcome.Padded V φ σ σ' (.ok a (σ.define id n v)) (.ok a (σ'.define (φ id) n v)) :=
  .ok ⟨Scopes.onward_define φ σ.scopes σ'.scopes id (φ id) n v, rfl, rfl⟩ (h.define hid n v)

end

end Lox
