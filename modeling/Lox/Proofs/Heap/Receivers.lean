import Lox.Proofs.Heap.Extends

/-!
# Receivers of methods

A scope that binds `this` was made to bind a method to a receiver. The class of the receiver, or one
that it inherits from, has that method, and the scope lies directly inside the one in which the
method is closed. There `super` stands for the superclass of the class that has the method. Each
operation on states keeps this, and with it that parents and superclasses are older than what they
belong to.
-/

namespace Lox

open Resolution

namespace State

/-- The class is the other one or inherits from it. -/
inductive Inherits (σ : State) : ClassId → ClassId → Prop where
  | self {id : ClassId} {c : Class} (h : σ.classes[id]? = some c) : Inherits σ id id
  | base {id base other : ClassId} {c : Class} (h : σ.classes[id]? = some c)
      (hbase : c.superclass = some base) (hother : Inherits σ base other) : Inherits σ id other

theorem Inherits.trans {σ : State} {a b c : ClassId} (h : σ.Inherits a b) (h' : σ.Inherits b c) :
    σ.Inherits a c := by
  induction h with
  | self _ => exact h'
  | base hclass hbase _ ih => exact .base hclass hbase (ih h')

theorem Inherits.extends {σ σ' : State} (hext : σ.Extends σ') {a b : ClassId}
    (h : σ.Inherits a b) : σ'.Inherits a b := by
  induction h with
  | self hclass => exact .self (hext.classes _ _ hclass)
  | base hclass hbase _ ih => exact .base (hext.classes _ _ hclass) hbase ih

/-- The instance has the method from the class `owner`, which is its own or one inherited from. -/
structure Offers (σ : State) (receiver : ObjectId) (owner : ClassId) (m : Function) : Prop where
  inherits : ∃ o, σ.objects[receiver]? = some o ∧ σ.Inherits o.classId owner
  method : ∃ c name, σ.classes[owner]? = some c ∧ c.methods.lookup name = some m

theorem Offers.extends {σ σ' : State} (hext : σ.Extends σ') {receiver : ObjectId} {owner : ClassId}
    {m : Function} (h : σ.Offers receiver owner m) : σ'.Offers receiver owner m where
  inherits := by
    obtain ⟨o, ho, hinherits⟩ := h.inherits
    obtain ⟨o', ho', hclass, -⟩ := hext.objects receiver o ho
    refine ⟨o', ho', ?_⟩
    rw [hclass]
    exact hinherits.extends hext
  method := by
    obtain ⟨c, name, hc, hm⟩ := h.method
    exact ⟨c, name, hext.classes owner c hc, hm⟩

/-- The class in which a method is found. -/
theorem exists_owner {σ : State} {id : ClassId} {name : Bytes} {f : Function}
    (h : σ.method? id name = some f) :
    ∃ owner c, σ.Inherits id owner ∧ σ.classes[owner]? = some c ∧ c.methods.lookup name = some f := by
  induction id using Nat.strongRecOn with
  | ind id ih =>
      rw [method?] at h
      cases hclass : σ.classes[id]? with
      | none => simp [hclass] at h
      | some c =>
          simp only [hclass] at h
          cases hlookup : c.methods.lookup name with
          | some g =>
              simp only [hlookup, Option.some.injEq] at h
              subst h
              exact ⟨id, c, .self hclass, hclass, hlookup⟩
          | none =>
              simp only [hlookup] at h
              cases hbase : c.superclass with
              | none => simp [hbase] at h
              | some base =>
                  simp only [hbase] at h
                  split at h
                  · obtain ⟨owner, d, hinherits, hd, hf⟩ := ih base (by assumption) h
                    exact ⟨owner, d, .base hclass hbase hinherits, hd, hf⟩
                  · cases h

theorem offers_of_method? {σ : State} {receiver : ObjectId} {o : Object}
    (ho : σ.objects[receiver]? = some o) {id : ClassId}
    (hid : ∀ owner, σ.Inherits id owner → σ.Inherits o.classId owner) {name : Bytes} {f : Function}
    (hf : σ.method? id name = some f) : ∃ owner, σ.Offers receiver owner f := by
  obtain ⟨owner, c, hinherits, hc, hlookup⟩ := exists_owner hf
  exact ⟨owner, ⟨o, ho, hid owner hinherits⟩, c, name, hc, hlookup⟩

/-- A method is closed in a scope that binds `super` if its class has a superclass, and to that. -/
structure MethodHome (σ : State) (c : Class) (m : Function) : Prop where
  closure : m.closure < σ.scopes.next
  this : σ.scopes.bound? m.closure thisName = none
  super : σ.scopes.bound? m.closure superName = c.superclass.map .class

theorem MethodHome.extends {σ σ' : State} (hext : σ.Extends σ') {c : Class} {m : Function}
    (h : σ.MethodHome c m) : σ'.MethodHome c m where
  closure := Nat.lt_of_lt_of_le h.closure hext.scopes.next
  this := (hext.reserved _ h.closure _ (.inl rfl)).trans h.this
  super := (hext.reserved _ h.closure _ (.inr rfl)).trans h.super

/-- Where `this` is bound in the closure of a function, the function is a method of the receiver. -/
structure FunctionHome (σ : State) (f : Function) : Prop where
  closure : f.closure < σ.scopes.next
  receiver : ∀ v, σ.scopes.bound? f.closure thisName = some v →
    ∃ receiver owner m, v = .object receiver ∧ σ.Offers receiver owner m ∧
      σ.scopes.parent? f.closure = some m.closure ∧ m.decl = f.decl ∧
      m.isInitializer = f.isInitializer

theorem FunctionHome.extends {σ σ' : State} (hext : σ.Extends σ') {f : Function}
    (h : σ.FunctionHome f) : σ'.FunctionHome f where
  closure := Nat.lt_of_lt_of_le h.closure hext.scopes.next
  receiver v hv := by
    rw [hext.reserved _ h.closure _ (.inl rfl)] at hv
    obtain ⟨receiver, owner, m, rfl, hoffers, hparent, hdecl, hinit⟩ := h.receiver v hv
    exact ⟨receiver, owner, m, rfl, hoffers.extends hext,
      hext.scopes.parent?_eq_some hparent, hdecl, hinit⟩

/-- The receiver of a method is bound in a scope directly inside the one of the method. -/
def Receives (σ : State) (scope : ScopeId) (v : Value) : Prop :=
  ∃ receiver owner m, v = .object receiver ∧ σ.Offers receiver owner m ∧
    σ.scopes.parent? scope = some m.closure

theorem Receives.extends {σ σ' : State} (hext : σ.Extends σ') {scope : ScopeId} {v : Value}
    (h : σ.Receives scope v) : σ'.Receives scope v := by
  obtain ⟨receiver, owner, m, rfl, hoffers, hparent⟩ := h
  exact ⟨receiver, owner, m, rfl, hoffers.extends hext, hext.scopes.parent?_eq_some hparent⟩

structure Heap (σ : State) : Prop where
  parents : ∀ id parent, σ.scopes.parent? id = some parent → parent < id
  superclasses : ∀ (id : ClassId) c base, σ.classes[id]? = some c → c.superclass = some base →
    base < id
  methods : ∀ (id : ClassId) c name m, σ.classes[id]? = some c → c.methods.lookup name = some m →
    σ.MethodHome c m
  receivers : ∀ scope v, σ.scopes.bound? scope thisName = some v → σ.Receives scope v
  functions : ∀ f ∈ σ.functions, σ.FunctionHome f

theorem Heap.methodHome {σ : State} (h : σ.Heap) {c : Class} (hc : c ∈ σ.classes)
    {name : Bytes} {m : Function} (hm : c.methods.lookup name = some m) : σ.MethodHome c m := by
  obtain ⟨id, hid, rfl⟩ := Array.mem_iff_getElem.mp hc
  exact h.methods id _ name m (Array.getElem?_eq_getElem hid) hm

/-- A later state is as it should be if all that is new in it is. -/
theorem Heap.extend {σ σ' : State} (h : σ.Heap) (hext : σ.Extends σ')
    (hparents : ∀ id parent, σ'.scopes.parent? id = some parent →
      σ.scopes.parent? id = some parent ∨ parent < id)
    (hclasses : ∀ (id : ClassId) c, σ'.classes[id]? = some c → σ.classes[id]? = some c ∨
      (∀ base, c.superclass = some base → base < id) ∧
        ∀ name m, c.methods.lookup name = some m → σ'.MethodHome c m)
    (hreceivers : ∀ scope v, σ'.scopes.bound? scope thisName = some v →
      σ.scopes.bound? scope thisName = some v ∨ σ'.Receives scope v)
    (hfunctions : ∀ f ∈ σ'.functions, f ∈ σ.functions ∨ σ'.FunctionHome f) : σ'.Heap where
  parents id parent hparent := by
    rcases hparents id parent hparent with hold | hnew
    · exact h.parents id parent hold
    · exact hnew
  superclasses id c base hc hbase := by
    rcases hclasses id c hc with hold | ⟨hnew, -⟩
    · exact h.superclasses id c base hold hbase
    · exact hnew base hbase
  methods id c name m hc hm := by
    rcases hclasses id c hc with hold | ⟨-, hnew⟩
    · exact (h.methods id c name m hold hm).extends hext
    · exact hnew name m hm
  receivers scope v hv := by
    rcases hreceivers scope v hv with hold | hnew
    · exact (h.receivers scope v hold).extends hext
    · exact hnew
  functions f hf := by
    rcases hfunctions f hf with hold | hnew
    · exact (h.functions f hold).extends hext
    · exact hnew

theorem Heap.of_eq {σ σ' : State} (h : σ.Heap) (hscopes : σ'.scopes = σ.scopes)
    (hfunctions : σ'.functions = σ.functions) (hclasses : σ'.classes = σ.classes)
    (hobjects : σ'.objects = σ.objects) : σ'.Heap := by
  refine h.extend (.of_eq hscopes hfunctions hclasses hobjects) ?_ ?_ ?_ ?_
  · exact fun id parent hparent => .inl (hscopes ▸ hparent)
  · exact fun id c hc => .inl (hclasses ▸ hc)
  · exact fun scope v hv => .inl (hscopes ▸ hv)
  · exact fun f hf => .inl (hfunctions ▸ hf)

theorem Heap.tick {σ : State} (h : σ.Heap) : σ.tick.2.Heap := by
  unfold State.tick
  split <;> exact h.of_eq rfl rfl rfl rfl

theorem Heap.define {σ : State} (h : σ.Heap) (id : ScopeId) {name : Bytes} (hname : Plain name)
    (v : Value) : (σ.define id name v).Heap := by
  refine h.extend (σ.extends_define id hname v) (fun other parent hparent => .inl ?_)
    (fun _ _ hc => .inl hc) (fun scope w hw => .inl ?_) fun _ hf => .inl hf
  · exact (σ.scopes.parent?_define id name v other).symm.trans hparent
  · have hbound := σ.scopes.bound?_define id name v scope thisName
    rw [if_neg fun hcase => hname.1 hcase.2.1.symm] at hbound
    exact hbound.symm.trans hw

theorem Heap.newScope {σ : State} (h : σ.Heap) {parent : ScopeId} (hparent : parent < σ.scopes.next)
    {bindings : Bindings Value}
    (hthis : ∀ v, bindings.lookup thisName = some v →
      (σ.newScope parent bindings).2.Receives σ.scopes.next v) :
    (σ.newScope parent bindings).2.Heap := by
  refine h.extend (σ.extends_newScope parent bindings) (fun id other hother => ?_)
    (fun _ _ hc => .inl hc) (fun scope v hv => ?_) fun _ hf => .inl hf
  · have hpush := σ.scopes.parent?_push (some parent) bindings id
    replace hpush := hpush.symm.trans hother
    split at hpush
    case isTrue heq =>
      cases hpush
      exact .inr (heq ▸ hparent)
    case isFalse => exact .inl hpush
  · have hpush := σ.scopes.bound?_push (some parent) bindings scope thisName
    replace hpush := hpush.symm.trans hv
    split at hpush
    case isTrue heq => exact .inr (heq ▸ hthis v hpush)
    case isFalse => exact .inl hpush

theorem Heap.functionValue {σ : State} (h : σ.Heap) {f : Function} (hf : σ.FunctionHome f) :
    (σ.functionValue f).2.Heap := by
  have hext := σ.extends_functionValue f
  refine h.extend hext (fun _ _ hparent => .inl hparent) (fun _ _ hc => .inl hc)
    (fun _ _ hv => .inl hv) fun g hg => ?_
  rcases Array.mem_push.mp hg with hg | rfl
  · exact .inl hg
  · exact .inr (hf.extends hext)

theorem Heap.newClass {σ : State} (h : σ.Heap) {c : Class}
    (hbase : ∀ base, c.superclass = some base → base < σ.classes.size)
    (hmethods : ∀ name m, c.methods.lookup name = some m → σ.MethodHome c m) :
    (σ.newClass c).2.Heap := by
  have hext := σ.extends_newClass c
  refine h.extend hext (fun _ _ hparent => .inl hparent) (fun id d hd => ?_)
    (fun _ _ hv => .inl hv) fun _ hf => .inl hf
  replace hd : (σ.classes.push c)[id]? = some d := hd
  rw [Array.getElem?_push] at hd
  split at hd
  case isTrue heq =>
    cases hd
    refine .inr ⟨fun base hb => heq ▸ hbase base hb, fun name m hm => ?_⟩
    exact (hmethods name m hm).extends hext
  case isFalse => exact .inl hd

theorem Heap.newObject {σ : State} (h : σ.Heap) (o : Object) : (σ.newObject o).2.Heap :=
  h.extend (σ.extends_newObject o) (fun _ _ hparent => .inl hparent) (fun _ _ hc => .inl hc)
    (fun _ _ hv => .inl hv) fun _ hf => .inl hf

theorem Heap.setField {σ : State} (h : σ.Heap) (id : ObjectId) (name : Bytes) (v : Value) :
    (σ.setField id name v).Heap :=
  h.extend (σ.extends_setField id name v) (fun _ _ hparent => .inl hparent)
    (fun _ _ hc => .inl hc) (fun _ _ hv => .inl hv) fun _ hf => .inl hf

section Binding

variable {σ : State} {receiver : ObjectId} {owner : ClassId} {f : Function}

theorem Offers.home (h : σ.Heap) (hf : σ.Offers receiver owner f) :
    ∃ c, σ.classes[owner]? = some c ∧ σ.MethodHome c f := by
  obtain ⟨c, name, hc, hm⟩ := hf.method
  exact ⟨c, hc, h.methods owner c name f hc hm⟩

/-- A method is bound to an instance that has it. -/
theorem Heap.bindMethod (h : σ.Heap) (hf : σ.Offers receiver owner f) :
    (σ.bindMethod f receiver).2.Heap ∧
      (σ.bindMethod f receiver).2.FunctionHome (σ.bindMethod f receiver).1 := by
  obtain ⟨c, -, hhome⟩ := hf.home h
  have hext := σ.extends_newScope f.closure [(thisName, .object receiver)]
  have hparent : (σ.bindMethod f receiver).2.scopes.parent? σ.scopes.next = some f.closure := by
    have hpush := σ.scopes.parent?_push (some f.closure) [(thisName, .object receiver)]
      σ.scopes.next
    rwa [if_pos rfl] at hpush
  have hthis : (σ.bindMethod f receiver).2.scopes.bound? σ.scopes.next thisName =
      some (.object receiver) := by
    have hpush := σ.scopes.bound?_push (some f.closure) [(thisName, .object receiver)]
      σ.scopes.next thisName
    rw [if_pos rfl] at hpush
    exact hpush.trans (by simp)
  constructor
  · refine h.newScope hhome.closure fun v hv => ?_
    obtain rfl : Value.object receiver = v := by simpa using hv
    exact ⟨receiver, owner, f, rfl, hf.extends hext, hparent⟩
  · refine ⟨?_, fun v hv => ?_⟩
    · have hnext := σ.scopes.next_push (some f.closure) [(thisName, .object receiver)]
      exact Nat.lt_of_lt_of_eq (Nat.lt_succ_self _) hnext.symm
    · obtain rfl : Value.object receiver = v := Option.some.inj (hthis.symm.trans hv)
      exact ⟨receiver, owner, f, rfl, hf.extends hext, hparent, rfl, rfl⟩

theorem Heap.boundMethod (h : σ.Heap) (hf : σ.Offers receiver owner f) :
    (σ.boundMethod f receiver).2.Heap := by
  obtain ⟨hbind, hhome⟩ := h.bindMethod hf
  exact hbind.functionValue hhome

end Binding

/-- Where `super` is bound directly around the scope of a receiver, it is bound to the superclass of
the class from which the receiver has the method. -/
theorem Heap.superclass {σ : State} (h : σ.Heap) {scope outer : ScopeId} {v : Value}
    {base : ClassId} (hthis : σ.scopes.bound? scope thisName = some v)
    (hparent : σ.scopes.parent? scope = some outer)
    (hsuper : σ.scopes.bound? outer superName = some (.class base)) :
    ∃ receiver owner m c, v = .object receiver ∧ σ.Offers receiver owner m ∧ m.closure = outer ∧
      σ.classes[owner]? = some c ∧ c.superclass = some base := by
  obtain ⟨receiver, owner, m, rfl, hoffers, hclosure⟩ := h.receivers scope v hthis
  obtain rfl : m.closure = outer := Option.some.inj (hclosure.symm.trans hparent)
  obtain ⟨c, hc, hhome⟩ := hoffers.home h
  refine ⟨receiver, owner, m, c, rfl, hoffers, rfl, hc, ?_⟩
  have hbound : c.superclass.map Value.class = some (.class base) := hhome.super.symm.trans hsuper
  obtain ⟨base', hbase', heq⟩ := Option.map_eq_some_iff.mp hbound
  cases heq
  exact hbase'

end State

end Lox
