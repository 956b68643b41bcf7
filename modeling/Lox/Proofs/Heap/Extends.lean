import Lox.Proofs.Soundness.State

/-!
# What stays of a state

Along a run, things are only added. A scope keeps its parent, the names that it binds, and what
`this` and `super` stand for in it; functions and classes stay as they were made; an instance keeps
its class and its fields.
-/

namespace Lox

open Resolution

/-- Not a name that a program can declare or assign. -/
def Reserved (name : Bytes) : Prop :=
  name = thisName ∨ name = superName

theorem Resolution.Plain.ne_of_reserved {name other : Bytes} (h : Plain name)
    (hother : Reserved other) : other ≠ name := by
  rcases hother with rfl | rfl
  · exact h.1.symm
  · exact h.2.symm

namespace State

/-- A later state of the same run. -/
structure Extends (before after : State) : Prop where
  scopes : before.scopes.Grows after.scopes
  reserved : ∀ id < before.scopes.next, ∀ name, Reserved name →
    after.scopes.bound? id name = before.scopes.bound? id name
  functions : ∀ (id : FunctionId) f, before.functions[id]? = some f → after.functions[id]? = some f
  classes : ∀ (id : ClassId) c, before.classes[id]? = some c → after.classes[id]? = some c
  objects : ∀ (id : ObjectId) o, before.objects[id]? = some o →
    ∃ o', after.objects[id]? = some o' ∧ o'.classId = o.classId ∧
      ∀ name, (o.fields.lookup name).isSome → (o'.fields.lookup name).isSome

theorem Extends.of_eq {σ σ' : State} (hscopes : σ'.scopes = σ.scopes)
    (hfunctions : σ'.functions = σ.functions) (hclasses : σ'.classes = σ.classes)
    (hobjects : σ'.objects = σ.objects) : σ.Extends σ' where
  scopes := by
    rw [hscopes]
    exact .refl _
  reserved id _ name _ := by rw [hscopes]
  functions id f hf := by rwa [hfunctions]
  classes id c hc := by rwa [hclasses]
  objects id o ho := ⟨o, by rwa [hobjects], rfl, fun _ h => h⟩

theorem Extends.refl (σ : State) : σ.Extends σ :=
  .of_eq rfl rfl rfl rfl

theorem Extends.trans {a b c : State} (h : a.Extends b) (h' : b.Extends c) : a.Extends c where
  scopes := h.scopes.trans h'.scopes
  reserved id hid name hname := by
    have hnext : id < b.scopes.next := Nat.lt_of_lt_of_le hid h.scopes.next
    exact (h'.reserved id hnext name hname).trans (h.reserved id hid name hname)
  functions id f hf := h'.functions id f (h.functions id f hf)
  classes id c hc := h'.classes id c (h.classes id c hc)
  objects id o ho := by
    obtain ⟨o₁, ho₁, hclass₁, hfields₁⟩ := h.objects id o ho
    obtain ⟨o₂, ho₂, hclass₂, hfields₂⟩ := h'.objects id o₁ ho₁
    exact ⟨o₂, ho₂, hclass₂.trans hclass₁, fun name hname => hfields₂ name (hfields₁ name hname)⟩

theorem extends_tick (σ : State) : σ.Extends σ.tick.2 := by
  unfold tick
  split <;> exact .of_eq rfl rfl rfl rfl

theorem extends_define (σ : State) (id : ScopeId) {name : Bytes} (hname : Plain name) (v : Value) :
    σ.Extends (σ.define id name v) where
  scopes := Scopes.grows_define _ _ _ _
  reserved other _ used hused := by
    have hne : used ≠ name := hname.ne_of_reserved hused
    have hbound := σ.scopes.bound?_define id name v other used
    rwa [if_neg fun hcase => hne hcase.2.1] at hbound
  functions _ _ hf := hf
  classes _ _ hc := hc
  objects _ o ho := ⟨o, ho, rfl, fun _ h => h⟩

theorem extends_newScope (σ : State) (parent : ScopeId) (bindings : Bindings Value) :
    σ.Extends (σ.newScope parent bindings).2 where
  scopes := Scopes.grows_push _ _ _
  reserved id hid name _ := by
    have hbound := σ.scopes.bound?_push (some parent) bindings id name
    rwa [if_neg (Nat.ne_of_lt hid)] at hbound
  functions _ _ hf := hf
  classes _ _ hc := hc
  objects _ o ho := ⟨o, ho, rfl, fun _ h => h⟩

theorem getElem?_push_of_some {α : Type} {xs : Array α} {id : Nat} {a b : α}
    (h : xs[id]? = some a) : (xs.push b)[id]? = some a := by
  have hlt : id < xs.size := (Array.getElem?_eq_some_iff.mp h).1
  rw [Array.getElem?_push, if_neg (Nat.ne_of_lt hlt)]
  exact h

theorem extends_functionValue (σ : State) (f : Function) : σ.Extends (σ.functionValue f).2 where
  scopes := .refl _
  reserved _ _ _ _ := rfl
  functions _ _ hf := getElem?_push_of_some hf
  classes _ _ hc := hc
  objects _ o ho := ⟨o, ho, rfl, fun _ h => h⟩

theorem extends_newClass (σ : State) (c : Class) : σ.Extends (σ.newClass c).2 where
  scopes := .refl _
  reserved _ _ _ _ := rfl
  functions _ _ hf := hf
  classes _ _ hc := getElem?_push_of_some hc
  objects _ o ho := ⟨o, ho, rfl, fun _ h => h⟩

theorem extends_newObject (σ : State) (o : Object) : σ.Extends (σ.newObject o).2 where
  scopes := .refl _
  reserved _ _ _ _ := rfl
  functions _ _ hf := hf
  classes _ _ hc := hc
  objects _ o ho := ⟨o, getElem?_push_of_some ho, rfl, fun _ h => h⟩

theorem getElem?_setField (σ : State) (id : ObjectId) (name : Bytes) (v : Value) (other : ObjectId) :
    (σ.setField id name v).objects[other]? =
      if id = other then
        σ.objects[other]?.map fun o => { o with fields := Bindings.insert name v o.fields }
      else σ.objects[other]? :=
  Array.getElem?_modify

theorem extends_setField (σ : State) (id : ObjectId) (name : Bytes) (v : Value) :
    σ.Extends (σ.setField id name v) where
  scopes := .refl _
  reserved _ _ _ _ := rfl
  functions _ _ hf := hf
  classes _ _ hc := hc
  objects other o ho := by
    rw [getElem?_setField, ho]
    by_cases heq : id = other
    · rw [if_pos heq]
      refine ⟨_, rfl, rfl, fun used hused => ?_⟩
      rw [Bindings.lookup_insert]
      split
      · rfl
      · exact hused
    · rw [if_neg heq]
      exact ⟨o, rfl, rfl, fun _ h => h⟩

theorem extends_boundMethod (σ : State) (f : Function) (receiver : ObjectId) :
    σ.Extends (σ.boundMethod f receiver).2 :=
  (extends_newScope σ f.closure [(thisName, .object receiver)]).trans (extends_functionValue _ _)

end State

end Lox
