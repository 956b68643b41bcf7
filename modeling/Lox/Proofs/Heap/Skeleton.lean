import Lox.Proofs.Heap.Changes
import Lox.Proofs.Heap.Reachable
import Lox.Proofs.Soundness.Tasks
import Lox.Proofs.Store.Chain

/-!
# The skeleton of the heap

Scopes are made inside older ones and classes upon older ones, whatever the names through which they
are reached, so each chain of parents ends in the globals and each chain of superclasses ends. What is
found on such a chain is what the first on it has. The methods of a class are those that its
statement declares, of two with one name the last.
-/

namespace Lox

open Resolution Eval

variable {V : Context → Place → Prop}

/-! ### Classes and their statements -/

/-- The methods that a class statement declares and the scope in which they are closed. -/
structure ClassBody where
  closure : ScopeId
  methods : List (FunctionDecl Site)

/-- The last method of that name in the body. -/
def ClassBody.last? (body : ClassBody) (name : Bytes) : Option Function :=
  (body.methods.reverse.find? fun decl => decl.name.lexeme = name).map fun decl =>
    ⟨decl, body.closure, decl.name.lexeme = initName⟩

theorem ClassBody.lookup_methodTable (body : ClassBody) (name : Bytes) :
    (methodTable body.closure body.methods).lookup name = body.last? name := by
  rw [methodTable, Bindings.lookup_foldl_insert_eq, List.lookup_nil, Option.or_none]
  rfl

/-- The class has the name and the methods of a visited class statement. -/
def Class.From (V : Context → Place → Prop) (c : Class) (body : ClassBody) : Prop :=
  ∃ ctx s name superclass, V ctx (.stmt s) ∧
    s.resolve ctx = .class name superclass body.methods ∧
    c.name = name.lexeme ∧ c.methods = methodTable body.closure body.methods

namespace State

variable {σ σ' : State}

/-! ### What every change keeps -/

/-- Only the globals have no parent, and every class comes from a class statement. -/
structure Built (V : Context → Place → Prop) (σ : State) : Prop where
  rooted : ∀ id < σ.scopes.next, σ.scopes.parent? id = none → id = State.globals
  classes : ∀ c ∈ σ.classes, ∃ body, c.From V body

theorem Built.of_eq (h : σ.Built V) (hscopes : σ'.scopes = σ.scopes)
    (hclasses : σ'.classes = σ.classes) : σ'.Built V := by
  refine ⟨?_, ?_⟩
  · rw [hscopes]
    exact h.rooted
  · rw [hclasses]
    exact h.classes

theorem Built.newScope (h : σ.Built V) (parent : ScopeId) (bindings : Bindings Value) :
    (σ.newScope parent bindings).2.Built V := by
  refine ⟨fun id hid hnone => ?_, h.classes⟩
  have hpush := σ.scopes.parent?_push (some parent) bindings id
  replace hpush := hpush.symm.trans hnone
  split at hpush
  case isTrue => cases hpush
  case isFalse hne =>
    have hlt : id < σ.scopes.next + 1 := (σ.scopes.next_push (some parent) bindings) ▸ hid
    exact h.rooted id (Nat.lt_of_le_of_ne (Nat.le_of_lt_succ hlt) hne) hpush

theorem Built.define (h : σ.Built V) (id : ScopeId) (name : Bytes) (v : Value) :
    (σ.define id name v).Built V := by
  refine ⟨fun other hother hnone => h.rooted other ?_ ?_, h.classes⟩
  · exact Nat.lt_of_lt_of_eq hother (σ.scopes.next_define id name v)
  · exact (σ.scopes.parent?_define id name v other).symm.trans hnone

/-- The statements that a task executes are visited. -/
theorem Built.change {t : Task} (h : σ.Built V)
    (hvisit : ∀ s, t = .exec s → ∃ ctx node, V ctx (.stmt node) ∧ s = node.resolve ctx)
    (hchange : Change t σ σ') : σ'.Built V := by
  cases hchange with
  | define id name v => exact h.define id name v
  | newScope parent bindings => exact h.newScope parent bindings
  | @newClass name superclass methods ht base closure =>
      obtain ⟨ctx, node, hnode, hresolve⟩ := hvisit _ ht
      refine ⟨h.rooted, fun c hc => ?_⟩
      rcases Array.mem_push.mp hc with hc | rfl
      · exact h.classes c hc
      · exact ⟨⟨closure, methods⟩, ctx, node, name, superclass, hnode, hresolve.symm, rfl, rfl⟩
  | functionValue | newObject | setField | print | aside => exact h.of_eq rfl rfl

end State

/-- What was printed stays; a new line is put in front of it. -/
theorem Change.printed {t : Task} {σ σ' : State} (h : Change t σ σ') :
    σ.printed <:+ σ'.printed := by
  cases h with
  | print text => exact List.suffix_cons text σ.printed
  | _ => exact List.suffix_rfl

/-- Lines are only added to those that were printed, and the state stays built from statements. -/
def building (V : Context → Place → Prop) : Conduct where
  ready _ _ := True
  moves before after := before.printed <:+ after.printed
  keeps := State.Built V

theorem building_holds : (building V).Holds (soundness V) := by
  refine Conduct.holds_of_allows (fun _ => List.suffix_rfl) List.IsSuffix.trans
    (fun _ _ => trivial) fun t σ hpre => ?_
  intro before after hchange hbuilt
  refine ⟨hchange.printed, hbuilt.change (fun s ht => ?_) hchange⟩
  subst ht
  obtain ⟨-, ctx, node, hvisit, hresolve, -⟩ := hpre
  exact ⟨ctx, node, hvisit, hresolve⟩

namespace State

/-! ### Chains of a state -/

/-- Chains of scopes end in the globals and chains of superclasses end, since each class is younger
than its superclass. A name is looked up, assigned, or searched for as a method in the first on the
chain that has it, and methods of a class are found as its body declares them. -/
structure Grounded (V : Context → Place → Prop) (σ : State) : Prop where
  scopes : ∀ id < σ.scopes.next, ∃ ids, Chain σ.scopes.parent? id ids ∧
    ids.getLast? = some State.globals ∧ ∀ name,
      σ.scopes.get? id name = (ids.findSome? fun scope => σ.scopes.bound? scope name) ∧
      ∀ v, σ.scopes.assign? id name v =
        (ids.find? fun scope => (σ.scopes.bound? scope name).isSome).map fun holder =>
          σ.scopes.define holder name v
  superclasses : ∀ (id : ClassId) c base, σ.classes[id]? = some c → c.superclass = some base →
    base < id
  methods : ∃ body : ClassId → ClassBody,
    (∀ (id : ClassId) c, σ.classes[id]? = some c → c.From V (body id)) ∧
    ∀ id < σ.classes.size, ∃ ids, Chain σ.superclass? id ids ∧
      ∀ name, σ.method? id name = ids.findSome? fun owner => (body owner).last? name

variable {σ : State}

theorem Built.exists_scopes (h : σ.Built V) (hheap : σ.Heap) {id : ScopeId}
    (hid : id < σ.scopes.next) :
    ∃ ids, Chain σ.scopes.parent? id ids ∧ ids.getLast? = some State.globals := by
  obtain ⟨ids, hchain⟩ := Chain.exists_of_descends hheap.parents id
  obtain ⟨last, hmem, hlast, hnone⟩ := hchain.exists_getLast?
  have hlt : last < σ.scopes.next :=
    Nat.lt_of_le_of_lt ((hchain.pairwise hheap.parents).2 last hmem) hid
  exact ⟨ids, hchain, h.rooted last hlt hnone ▸ hlast⟩

/-- Every class has a body from which it comes. -/
theorem Built.exists_bodies (h : σ.Built V) : ∃ body : ClassId → ClassBody,
    ∀ id, (∀ c, σ.classes[id]? = some c → c.From V (body id)) ∧
      ∀ name, σ.ownMethod? id name = (body id).last? name := by
  have hexists (id : ClassId) : ∃ body : ClassBody,
      (∀ c, σ.classes[id]? = some c → c.From V body) ∧
        ∀ name, σ.ownMethod? id name = body.last? name := by
    simp only [ownMethod?]
    -- Where there is no class, a body without methods agrees with the look-up.
    cases hc : σ.classes[id]? with
    | none => exact ⟨⟨State.globals, []⟩, by simp, fun name => rfl⟩
    | some c =>
        obtain ⟨body, hfrom⟩ := h.classes c (Array.mem_of_getElem? hc)
        refine ⟨body, fun d hd => Option.some.inj hd ▸ hfrom, fun name => ?_⟩
        obtain ⟨-, -, -, -, -, -, -, hmethods⟩ := hfrom
        rw [Option.bind_some, hmethods, body.lookup_methodTable]
  exact Classical.skolem.mp hexists

theorem Built.grounded (h : σ.Built V) (hheap : σ.Heap) : σ.Grounded V where
  scopes id hid := by
    obtain ⟨ids, hchain, hlast⟩ := h.exists_scopes hheap hid
    refine ⟨ids, hchain, hlast, fun name => ⟨?_, fun v => ?_⟩⟩
    · exact Scopes.Forest.get?_eq_findSome? hheap.parents hchain name
    · rw [Scopes.assign?_eq_map, Scopes.Forest.holder?_eq_find? hheap.parents hchain]
  superclasses := hheap.superclasses
  methods := by
    obtain ⟨body, hbody⟩ := h.exists_bodies
    refine ⟨body, fun id => (hbody id).1, fun id _ => ?_⟩
    obtain ⟨ids, hchain⟩ := Chain.exists_of_descends hheap.superclass?_lt id
    refine ⟨ids, hchain, fun name => ?_⟩
    refine hchain.findSome?_eq (fun id => σ.method? id name) fun id => ?_
    rw [← (hbody id).2 name]
    exact hheap.method?_eq name id

end State

end Lox
