import Mathlib.Logic.Relation
import Lox.Proofs.Heap.Receivers

/-!
# What a value reaches

Values refer to others: an instance to its fields and its class, a class to its superclass and to the
scopes in which its methods are closed, a function to its closure, and a scope to what it binds and
to its parent. From what exists in a state only what exists there is reached, so a new instance is
reached from nothing.
-/

namespace Lox

open Resolution

/-- What can refer to something or be referred to. -/
inductive Referent where
  | value (v : Value)
  | scope (id : ScopeId)

/-- The value or scope exists. -/
def Referent.Valid (σ : State) : Referent → Prop
  | .value v => Value.Valid σ v
  | .scope id => id < σ.scopes.next

namespace State

inductive Refers (σ : State) : Referent → Referent → Prop where
  | field {id : ObjectId} {o : Object} {name : Bytes} {v : Value} (ho : σ.objects[id]? = some o)
      (hv : o.fields.lookup name = some v) : Refers σ (.value (.object id)) (.value v)
  | instance {id : ObjectId} {o : Object} (ho : σ.objects[id]? = some o) :
      Refers σ (.value (.object id)) (.value (.class o.classId))
  | superclass {id base : ClassId} {c : Class} (hc : σ.classes[id]? = some c)
      (hbase : c.superclass = some base) : Refers σ (.value (.class id)) (.value (.class base))
  | method {id : ClassId} {c : Class} {name : Bytes} {m : Function} (hc : σ.classes[id]? = some c)
      (hm : c.methods.lookup name = some m) : Refers σ (.value (.class id)) (.scope m.closure)
  | closure {id : FunctionId} {f : Function} (hf : σ.functions[id]? = some f) :
      Refers σ (.value (.function id)) (.scope f.closure)
  | binding {id : ScopeId} {name : Bytes} {v : Value} (hv : σ.scopes.bound? id name = some v) :
      Refers σ (.scope id) (.value v)
  | parent {id parent : ScopeId} (hparent : σ.scopes.parent? id = some parent) :
      Refers σ (.scope id) (.scope parent)

/-- Over any number of references. -/
def Reaches (σ : State) : Referent → Referent → Prop :=
  Relation.ReflTransGen σ.Refers

variable {V : Context → Place → Prop}

theorem Refers.valid {σ : State} (h : σ.Sound V) (hheap : σ.Heap) {a b : Referent}
    (hrefers : σ.Refers a b) (ha : a.Valid σ) : b.Valid σ := by
  cases hrefers with
  | field ho hv => exact (h.objects _ (Array.mem_of_getElem? ho)).2 _ _ hv
  | «instance» ho => exact (h.objects _ (Array.mem_of_getElem? ho)).1
  | superclass hc hbase => exact Nat.lt_trans (hheap.superclasses _ _ _ hc hbase) ha
  | method hc hm => exact (hheap.methods _ _ _ _ hc hm).closure
  | closure hf => exact (hheap.functions _ (Array.mem_of_getElem? hf)).closure
  | binding hv => exact (h.bound _ _ _ hv).1
  | parent hparent => exact Nat.lt_trans (hheap.parents _ _ hparent) ha

theorem Reaches.valid {σ : State} (h : σ.Sound V) (hheap : σ.Heap) {a b : Referent}
    (hreaches : σ.Reaches a b) (ha : a.Valid σ) : b.Valid σ := by
  induction hreaches with
  | refl => exact ha
  | tail _ hrefers ih => exact hrefers.valid h hheap ih

/-- The instance that is created next is not reached yet. -/
theorem not_reaches_next {σ : State} (h : σ.Sound V) (hheap : σ.Heap) {a : Referent}
    (ha : a.Valid σ) : ¬σ.Reaches a (.value (.object σ.objects.size)) := by
  intro hreaches
  have hvalid : σ.objects.size < σ.objects.size := hreaches.valid h hheap ha
  exact Nat.lt_irrefl _ hvalid

/-! ### Methods of a class -/

def superclass? (σ : State) (id : ClassId) : Option ClassId :=
  σ.classes[id]?.bind Class.superclass

/-- A method that a class does not inherit. -/
def ownMethod? (σ : State) (id : ClassId) (name : Bytes) : Option Function :=
  σ.classes[id]?.bind fun c => c.methods.lookup name

theorem Heap.superclass?_lt {σ : State} (hheap : σ.Heap) (id base : ClassId)
    (hbase : σ.superclass? id = some base) : base < id := by
  obtain ⟨c, hc, hsuper⟩ := Option.bind_eq_some_iff.mp hbase
  exact hheap.superclasses id c base hc hsuper

/-- A class has a method of its own or else the one that its superclass has. -/
theorem Heap.method?_eq {σ : State} (hheap : σ.Heap) (name : Bytes) (id : ClassId) :
    σ.method? id name =
      (σ.ownMethod? id name).or ((σ.superclass? id).bind fun base => σ.method? base name) := by
  rw [method?, ownMethod?, superclass?]
  cases hc : σ.classes[id]? with
  | none => rfl
  | some c =>
      cases hlookup : c.methods.lookup name with
      | some f => simp [hlookup]
      | none =>
          cases hbase : c.superclass with
          | none => simp [hlookup, hbase]
          | some base => simp [hlookup, hbase, hheap.superclasses id c base hc hbase]

/-- The method is that of the nearest class that has one of the name, from the class upwards. -/
inductive Finds (σ : State) (name : Bytes) : ClassId → Function → Prop where
  | own {id : ClassId} {c : Class} {f : Function} (hc : σ.classes[id]? = some c)
      (hf : c.methods.lookup name = some f) : Finds σ name id f
  | inherited {id base : ClassId} {c : Class} {f : Function} (hc : σ.classes[id]? = some c)
      (hnone : c.methods.lookup name = none) (hbase : c.superclass = some base)
      (hf : Finds σ name base f) : Finds σ name id f

theorem method?_eq_some_iff {σ : State} (hheap : σ.Heap) {id : ClassId} {name : Bytes}
    {f : Function} : σ.method? id name = some f ↔ σ.Finds name id f := by
  constructor
  · intro hf
    induction id using Nat.strongRecOn with
    | ind id ih =>
        rw [hheap.method?_eq, Option.or_eq_some_iff] at hf
        rcases hf with hown | ⟨hnone, hinherited⟩
        · obtain ⟨c, hc, hlookup⟩ := Option.bind_eq_some_iff.mp hown
          exact .own hc hlookup
        · obtain ⟨base, hsuper, hf⟩ := Option.bind_eq_some_iff.mp hinherited
          obtain ⟨c, hc, hbase⟩ := Option.bind_eq_some_iff.mp hsuper
          rw [ownMethod?, hc, Option.bind_some] at hnone
          exact .inherited hc hnone hbase (ih base (hheap.superclass?_lt id base hsuper) hf)
  · intro hfinds
    induction hfinds with
    | own hc hf =>
        rw [hheap.method?_eq]
        simp [ownMethod?, hc, hf]
    | inherited hc hnone hbase _ ih =>
        rw [hheap.method?_eq]
        simpa [ownMethod?, superclass?, hc, hnone, hbase] using ih

end State

end Lox
