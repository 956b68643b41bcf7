import Lox.Proofs.Soundness.Reach

/-!
# Sound states

A state is sound if everything in it refers to things that exist, `this` and `super` are bound to
what they stand for, and every function was made from a declaration that was reached, in an instance
of the scopes around it. Each operation on states keeps this.
-/

namespace Lox

open Resolution

/-- The value refers to something in the state, if it refers to anything. -/
def Value.Valid (σ : State) : Value → Prop
  | .function id => id < σ.functions.size
  | .class id => id < σ.classes.size
  | .object id => id < σ.objects.size
  | _ => True

/-- What may be bound to a name: `this` stands for an instance and `super` for a class. -/
def Admits (name : Bytes) (v : Value) : Prop :=
  (name = thisName → ∃ id, v = .object id) ∧ (name = superName → ∃ id, v = .class id)

theorem Resolution.Plain.admits {name : Bytes} (h : Plain name) (v : Value) : Admits name v :=
  ⟨fun hname => absurd hname h.1, fun hname => absurd hname h.2⟩

namespace State

/-- Things are created and never removed. -/
structure Grows (before after : State) : Prop where
  scopes : before.scopes.Grows after.scopes
  functions : before.functions.size ≤ after.functions.size
  classes : before.classes.size ≤ after.classes.size
  objects : before.objects.size ≤ after.objects.size

theorem Grows.refl (σ : State) : σ.Grows σ :=
  ⟨.refl _, Nat.le_refl _, Nat.le_refl _, Nat.le_refl _⟩

theorem Grows.trans {a b c : State} (h : a.Grows b) (h' : b.Grows c) : a.Grows c where
  scopes := h.scopes.trans h'.scopes
  functions := Nat.le_trans h.functions h'.functions
  classes := Nat.le_trans h.classes h'.classes
  objects := Nat.le_trans h.objects h'.objects

end State

theorem Value.Valid.grows {σ σ' : State} (h : σ.Grows σ') {v : Value} (hv : v.Valid σ) :
    v.Valid σ' := by
  cases v with
  | function id => exact Nat.lt_of_lt_of_le hv h.functions
  | «class» id => exact Nat.lt_of_lt_of_le hv h.classes
  | object id => exact Nat.lt_of_lt_of_le hv h.objects
  | _ => trivial

section Sound

variable (V : Reach)

/-- The function is a declaration that was reached, closed in an instance of the scopes around it. -/
def FunctionSound (scopes : Scopes) (f : Function) : Prop :=
  ∃ ctx kind d, V.Here scopes f.closure ctx (.function kind d) ∧ f.decl = d.resolve ctx kind ∧
    (f.isInitializer = true ↔ kind = .initializer) ∧ Matches scopes f.closure ctx.scopes

/-- A method that is not bound yet lacks the scope for `this`. -/
def MethodSound (scopes : Scopes) (f : Function) : Prop :=
  ∃ ctx d ds outer, V.Here scopes f.closure ctx (.methods (d :: ds)) ∧
    f.decl = d.resolve ctx (Context.methodKind d.name) ∧
    (f.isInitializer = true ↔ Context.methodKind d.name = .initializer) ∧
    ctx.scopes = [(thisName, true)] :: outer ∧ Matches scopes f.closure outer

/-- A class has its methods under their own names. -/
def ClassSound (scopes : Scopes) (c : Class) : Prop :=
  ∀ name f, c.methods.lookup name = some f → MethodSound V scopes f ∧ f.decl.name.lexeme = name

def ObjectSound (σ : State) (o : Object) : Prop :=
  o.classId < σ.classes.size ∧ ∀ name v, o.fields.lookup name = some v → v.Valid σ

structure State.Sound (σ : State) : Prop where
  outermost : σ.scopes.parent? State.globals = none
  nonempty : 0 < σ.scopes.next
  bound : ∀ id name v, σ.scopes.bound? id name = some v → v.Valid σ ∧ Admits name v
  functions : ∀ f ∈ σ.functions, FunctionSound V σ.scopes f
  classes : ∀ c ∈ σ.classes, ClassSound V σ.scopes c
  objects : ∀ o ∈ σ.objects, ObjectSound σ o

end Sound

variable {T : Task → State → Prop} {V : Reach}

theorem Reach.Here.grows {a b : Scopes} (h : a.Grows b) {id : ScopeId} {ctx : Context} {p : Place}
    (hvisit : V.Here a id ctx p) {frames : List Frame} (hmatches : Matches a id frames)
    (hlength : frames.length = (p.around ctx).length) : V.Here b id ctx p := by
  rw [Reach.Here, ← b.instances_congr id hlength, hmatches.instances_grows h,
    a.instances_congr id hlength]
  exact hvisit

theorem FunctionSound.grows {a b : Scopes} (h : a.Grows b) {f : Function}
    (hf : FunctionSound V a f) : FunctionSound V b f := by
  obtain ⟨ctx, kind, d, hvisit, hdecl, hkind, hmatches⟩ := hf
  exact ⟨ctx, kind, d, hvisit.grows h hmatches rfl, hdecl, hkind, hmatches.grows h⟩

theorem MethodSound.grows {a b : Scopes} (h : a.Grows b) {f : Function}
    (hf : MethodSound V a f) : MethodSound V b f := by
  obtain ⟨ctx, d, ds, outer, hvisit, hdecl, hkind, hscopes, hmatches⟩ := hf
  have hlength : outer.length = ((Place.methods (d :: ds)).around ctx).length := by
    rw [Place.around, hscopes, List.tail_cons]
  exact ⟨ctx, d, ds, outer, hvisit.grows h hmatches hlength, hdecl, hkind, hscopes,
    hmatches.grows h⟩

theorem ObjectSound.grows {σ σ' : State} (h : σ.Grows σ') {o : Object} (ho : ObjectSound σ o) :
    ObjectSound σ' o :=
  ⟨Nat.lt_of_lt_of_le ho.1 h.classes, fun name v hv => (ho.2 name v hv).grows h⟩

/-- A larger state is sound if all that is new in it is. -/
theorem State.Sound.grow {σ σ' : State} (h : σ.Sound V) (hgrows : σ.Grows σ')
    (hbound : ∀ id name v, σ'.scopes.bound? id name = some v →
      σ.scopes.bound? id name = some v ∨ v.Valid σ' ∧ Admits name v)
    (hfunctions : ∀ f ∈ σ'.functions, f ∈ σ.functions ∨ FunctionSound V σ'.scopes f)
    (hclasses : ∀ c ∈ σ'.classes, c ∈ σ.classes ∨ ClassSound V σ'.scopes c)
    (hobjects : ∀ o ∈ σ'.objects, o ∈ σ.objects ∨ ObjectSound σ' o) : σ'.Sound V where
  outermost := (hgrows.scopes.parent State.globals h.nonempty).trans h.outermost
  nonempty := Nat.lt_of_lt_of_le h.nonempty hgrows.scopes.next
  bound id name v hv := by
    rcases hbound id name v hv with hold | hnew
    · exact ⟨(h.bound id name v hold).1.grows hgrows, (h.bound id name v hold).2⟩
    · exact hnew
  functions f hf := by
    rcases hfunctions f hf with hold | hnew
    · exact (h.functions f hold).grows hgrows.scopes
    · exact hnew
  classes c hc := by
    rcases hclasses c hc with hold | hnew
    · intro name f hf
      obtain ⟨hmethod, hname⟩ := h.classes c hold name f hf
      exact ⟨hmethod.grows hgrows.scopes, hname⟩
    · exact hnew
  objects o ho := by
    rcases hobjects o ho with hold | hnew
    · exact (h.objects o hold).grows hgrows
    · exact hnew

/-! ### Operations that leave the store alone -/

namespace State

theorem Sound.withEnv {σ : State} (h : σ.Sound V) (env : ScopeId) :
    ({ σ with env := env } : State).Sound V :=
  ⟨h.outermost, h.nonempty, h.bound, h.functions, h.classes, h.objects⟩

theorem Sound.withDepth {σ : State} (h : σ.Sound V) (depth : Nat) :
    ({ σ with depth := depth } : State).Sound V :=
  ⟨h.outermost, h.nonempty, h.bound, h.functions, h.classes, h.objects⟩

theorem Sound.withPrinted {σ : State} (h : σ.Sound V) (printed : List Bytes) :
    ({ σ with printed := printed } : State).Sound V :=
  ⟨h.outermost, h.nonempty, h.bound, h.functions, h.classes, h.objects⟩

theorem Sound.tick {σ : State} (h : σ.Sound V) : σ.tick.2.Sound V := by
  unfold State.tick
  split
  · exact h
  · exact h
  · exact ⟨h.outermost, h.nonempty, h.bound, h.functions, h.classes, h.objects⟩

theorem grows_tick (σ : State) : σ.Grows σ.tick.2 := by
  unfold State.tick
  split <;> exact ⟨.refl _, Nat.le_refl _, Nat.le_refl _, Nat.le_refl _⟩

@[simp]
theorem env_tick (σ : State) : σ.tick.2.env = σ.env := by
  unfold State.tick
  split <;> rfl

/-! ### Operations on the store -/

theorem grows_define (σ : State) (id : ScopeId) (name : Bytes) (v : Value) :
    σ.Grows (σ.define id name v) :=
  ⟨Scopes.grows_define _ _ _ _, Nat.le_refl _, Nat.le_refl _, Nat.le_refl _⟩

theorem Sound.define {σ : State} (h : σ.Sound V) (id : ScopeId) {name : Bytes} {v : Value}
    (hv : v.Valid σ) (hname : Admits name v) : (σ.define id name v).Sound V := by
  refine h.grow (grows_define σ id name v) ?_ (fun f hf => .inl hf) (fun c hc => .inl hc)
    fun o ho => .inl ho
  intro other used w hw
  have hbound := σ.scopes.bound?_define id name v other used
  by_cases hcase : other = id ∧ used = name ∧ id < σ.scopes.next
  · rw [if_pos hcase] at hbound
    obtain rfl : v = w := Option.some.inj (hbound.symm.trans hw)
    obtain ⟨-, rfl, -⟩ := hcase
    exact .inr ⟨hv.grows (grows_define σ id used v), hname⟩
  · rw [if_neg hcase] at hbound
    exact .inl (hbound.symm.trans hw)

theorem grows_newScope (σ : State) (parent : ScopeId) (bindings : Bindings Value) :
    σ.Grows (σ.newScope parent bindings).2 :=
  ⟨Scopes.grows_push _ _ _, Nat.le_refl _, Nat.le_refl _, Nat.le_refl _⟩

/-- Bindings of a new scope. -/
def Bindable (σ : State) (bindings : Bindings Value) : Prop :=
  ∀ name v, bindings.lookup name = some v → v.Valid σ ∧ Admits name v

theorem Sound.newScope {σ : State} (h : σ.Sound V) (parent : ScopeId) {bindings : Bindings Value}
    (hbindings : σ.Bindable bindings) : (σ.newScope parent bindings).2.Sound V := by
  have hgrows := grows_newScope σ parent bindings
  refine h.grow hgrows ?_ (fun f hf => .inl hf) (fun c hc => .inl hc) fun o ho => .inl ho
  intro id name v hv
  have hbound := σ.scopes.bound?_push (some parent) bindings id name
  by_cases hid : id = σ.scopes.next
  · rw [if_pos hid] at hbound
    obtain ⟨hvalid, hadmits⟩ := hbindings name v (hbound.symm.trans hv)
    exact .inr ⟨hvalid.grows hgrows, hadmits⟩
  · rw [if_neg hid] at hbound
    exact .inl (hbound.symm.trans hv)

theorem grows_functionValue (σ : State) (f : Function) : σ.Grows (σ.functionValue f).2 :=
  ⟨.refl _, by simp [functionValue, newFunction], Nat.le_refl _, Nat.le_refl _⟩

theorem valid_functionValue (σ : State) (f : Function) :
    (σ.functionValue f).1.Valid (σ.functionValue f).2 := by
  simp [functionValue, newFunction, Value.Valid]

theorem Sound.functionValue {σ : State} (h : σ.Sound V) {f : Function}
    (hf : FunctionSound V σ.scopes f) : (σ.functionValue f).2.Sound V := by
  refine h.grow (grows_functionValue σ f) (fun _ _ _ hv => .inl hv) (fun g hg => ?_)
    (fun c hc => .inl hc) fun o ho => .inl ho
  rcases Array.mem_push.mp hg with hg | rfl
  · exact .inl hg
  · exact .inr hf

theorem grows_newClass (σ : State) (c : Class) : σ.Grows (σ.newClass c).2 :=
  ⟨.refl _, Nat.le_refl _, by simp [newClass], Nat.le_refl _⟩

theorem Sound.newClass {σ : State} (h : σ.Sound V) {c : Class} (hc : ClassSound V σ.scopes c) :
    (σ.newClass c).2.Sound V := by
  refine h.grow (grows_newClass σ c) (fun _ _ _ hv => .inl hv) (fun f hf => .inl hf)
    (fun d hd => ?_) fun o ho => .inl ho
  rcases Array.mem_push.mp hd with hd | rfl
  · exact .inl hd
  · exact .inr hc

theorem grows_newObject (σ : State) (o : Object) : σ.Grows (σ.newObject o).2 :=
  ⟨.refl _, Nat.le_refl _, Nat.le_refl _, by simp [newObject]⟩

theorem Sound.newObject {σ : State} (h : σ.Sound V) {id : ClassId} (hid : id < σ.classes.size) :
    (σ.newObject ⟨id, []⟩).2.Sound V := by
  refine h.grow (grows_newObject σ _) (fun _ _ _ hv => .inl hv) (fun f hf => .inl hf)
    (fun c hc => .inl hc) fun o ho => ?_
  rcases Array.mem_push.mp ho with ho | rfl
  · exact .inl ho
  · exact .inr ⟨hid, fun name v hv => nomatch hv⟩

theorem grows_setField (σ : State) (id : ObjectId) (name : Bytes) (v : Value) :
    σ.Grows (σ.setField id name v) :=
  ⟨.refl _, Nat.le_refl _, Nat.le_refl _, by simp [setField]⟩

theorem Sound.setField {σ : State} (h : σ.Sound V) (id : ObjectId) (name : Bytes) {v : Value}
    (hv : v.Valid σ) : (σ.setField id name v).Sound V := by
  have hgrows := grows_setField σ id name v
  refine h.grow hgrows (fun _ _ _ hv => .inl hv) (fun f hf => .inl hf) (fun c hc => .inl hc)
    fun o ho => ?_
  obtain ⟨i, hi, rfl⟩ := Array.mem_iff_getElem.mp ho
  simp only [State.setField, Array.size_modify] at hi
  simp only [State.setField, Array.getElem_modify]
  split
  · right
    have hold := h.objects _ (Array.getElem_mem hi)
    refine ⟨hold.1, fun used w hw => ?_⟩
    rw [Bindings.lookup_insert] at hw
    split at hw
    · cases hw
      exact hv.grows hgrows
    · exact (hold.2 used w hw).grows hgrows
  · exact .inl (Array.getElem_mem hi)

/-! ### Methods -/

theorem Sound.method? {σ : State} (h : σ.Sound V) {id : ClassId} {name : Bytes} {f : Function}
    (hf : σ.method? id name = some f) :
    MethodSound V σ.scopes f ∧ f.decl.name.lexeme = name := by
  induction id using Nat.strongRecOn with
  | ind id ih =>
      rw [State.method?] at hf
      cases hclass : σ.classes[id]? with
      | none => simp [hclass] at hf
      | some c =>
          simp only [hclass] at hf
          cases hlookup : c.methods.lookup name with
          | some g =>
              simp only [hlookup, Option.some.injEq] at hf
              subst hf
              exact h.classes c (Array.mem_of_getElem? hclass) name g hlookup
          | none =>
              simp only [hlookup] at hf
              split at hf
              · split at hf
                · exact ih _ (by assumption) hf
                · cases hf
              · cases hf

theorem grows_bindMethod (σ : State) (f : Function) (receiver : ObjectId) :
    σ.Grows (σ.bindMethod f receiver).2 :=
  grows_newScope σ _ _

theorem bindable_this {σ : State} {receiver : ObjectId} (h : receiver < σ.objects.size) :
    σ.Bindable [(thisName, .object receiver)] := by
  intro name v hv
  rw [List.lookup_cons] at hv
  split at hv
  case h_1 heq =>
    cases hv
    refine ⟨h, fun _ => ⟨receiver, rfl⟩, fun hsuper => ?_⟩
    rw [hsuper] at heq
    exact absurd heq (by decide)
  case h_2 => cases hv

theorem Sound.bindMethod {σ : State} (h : σ.Sound V) (f : Function) {receiver : ObjectId}
    (hreceiver : receiver < σ.objects.size) : (σ.bindMethod f receiver).2.Sound V :=
  h.newScope f.closure (bindable_this hreceiver)

/-- A method that is bound to a receiver has all scopes around its declaration. -/
theorem functionSound_bindMethod (hclosed : V.Closed T) {σ : State} (h : σ.Sound V) {f : Function}
    (hf : MethodSound V σ.scopes f) (hbinds : BoundBy T f σ.scopes.next) (receiver : ObjectId) :
    FunctionSound V (σ.bindMethod f receiver).2.scopes (σ.bindMethod f receiver).1 := by
  obtain ⟨ctx, d, ds, outer, hvisit, hdecl, hkind, hscopes, hmatches⟩ := hf
  have hbound : Matches (σ.bindMethod f receiver).2.scopes σ.scopes.next ctx.scopes := by
    rw [hscopes]
    refine hmatches.push h.nonempty fun name hname => ?_
    rw [List.lookup_cons] at hname ⊢
    split at hname
    case h_1 => simp
    case h_2 => cases hname
  have hids : (σ.bindMethod f receiver).2.scopes.instances σ.scopes.next ctx.scopes =
      σ.scopes.next :: σ.scopes.instances f.closure outer := by
    rw [hscopes]
    exact hmatches.instances_push _ _
  refine ⟨ctx, Context.methodKind d.name, d, ?_, hdecl, hkind, hbound⟩
  rw [Reach.Here, Place.around, hscopes, List.tail_cons] at hvisit
  have hmethod := hclosed.opens hvisit (.method hbinds hmatches.headD_instances.symm hdecl)
  rw [Reach.Here]
  exact hids.symm ▸ hmethod

theorem grows_boundMethod (σ : State) (f : Function) (receiver : ObjectId) :
    σ.Grows (σ.boundMethod f receiver).2 :=
  (grows_bindMethod σ f receiver).trans (grows_functionValue _ _)

theorem Sound.boundMethod (hclosed : V.Closed T) {σ : State} (h : σ.Sound V) {f : Function}
    (hf : MethodSound V σ.scopes f) (hbinds : BoundBy T f σ.scopes.next) {receiver : ObjectId}
    (hreceiver : receiver < σ.objects.size) : (σ.boundMethod f receiver).2.Sound V :=
  (h.bindMethod f hreceiver).functionValue
    (functionSound_bindMethod hclosed h hf hbinds receiver)

theorem valid_boundMethod (σ : State) (f : Function) (receiver : ObjectId) :
    (σ.boundMethod f receiver).1.Valid (σ.boundMethod f receiver).2 :=
  valid_functionValue _ _

end State

end Lox
