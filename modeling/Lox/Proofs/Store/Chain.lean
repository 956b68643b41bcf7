import Lox.Proofs.Store.Scopes

/-!
# Chains

From a scope one comes to its parent, from a class to its superclass, and so on up to one that leads
nowhere. Where each leads only to older ones every such chain ends, and to look something up is to
find the first on the chain that has it.
-/

namespace Lox

/-- What one comes to from an identity on, itself first, up to one that leads nowhere. -/
inductive Chain (next : Nat → Option Nat) : Nat → List Nat → Prop where
  | last {id : Nat} (h : next id = none) : Chain next id [id]
  | step {id above : Nat} {ids : List Nat} (h : next id = some above)
      (hrest : Chain next above ids) : Chain next id (id :: ids)

namespace Chain

variable {next : Nat → Option Nat} {id : Nat} {ids : List Nat}

theorem exists_of_descends (h : ∀ id above, next id = some above → above < id) (id : Nat) :
    ∃ ids, Chain next id ids := by
  induction id using Nat.strongRecOn with
  | ind id ih =>
      cases habove : next id with
      | none => exact ⟨[id], .last habove⟩
      | some above =>
          obtain ⟨ids, hids⟩ := ih above (h id above habove)
          exact ⟨id :: ids, .step habove hids⟩

/-- Older ones come later. -/
theorem pairwise (h : ∀ id above, next id = some above → above < id) (hchain : Chain next id ids) :
    ids.Pairwise (· > ·) ∧ ∀ other ∈ ids, other ≤ id := by
  induction hchain with
  | last => simp
  | @step id above ids habove _ ih =>
      obtain ⟨hpairwise, hle⟩ := ih
      have hlt (other : Nat) (hother : other ∈ ids) : other < id :=
        Nat.lt_of_le_of_lt (hle other hother) (h id above habove)
      refine ⟨List.pairwise_cons.mpr ⟨hlt, hpairwise⟩, List.forall_mem_cons.mpr ⟨Nat.le_refl _, ?_⟩⟩
      exact fun other hother => Nat.le_of_lt (hlt other hother)

/-- The last on a chain leads nowhere. -/
theorem exists_getLast? (hchain : Chain next id ids) :
    ∃ last ∈ ids, ids.getLast? = some last ∧ next last = none := by
  induction hchain with
  | @last id hnone => exact ⟨id, List.mem_singleton_self id, rfl, hnone⟩
  | @step id above ids _ _ ih =>
      obtain ⟨last, hmem, hlast, hnone⟩ := ih
      refine ⟨last, List.mem_cons_of_mem id hmem, ?_, hnone⟩
      rw [List.getLast?_cons, hlast, Option.getD_some]

/-- A look-up that goes on to the next one finds what the first on the chain has that has any. -/
theorem findSome?_eq {α : Type} {own : Nat → Option α} (search : Nat → Option α)
    (hsearch : ∀ id, search id = (own id).or ((next id).bind search)) (hchain : Chain next id ids) :
    search id = ids.findSome? own := by
  induction hchain with
  | @last id hnone =>
      rw [hsearch, hnone, Option.bind_none, Option.or_none, List.findSome?_cons]
      cases own id <;> rfl
  | @step id above ids habove _ ih =>
      rw [hsearch, habove, Option.bind_some, ih, List.findSome?_cons]
      cases own id <;> rfl

end Chain

namespace Scopes

variable {scopes : Scopes} {id : ScopeId} {ids : List ScopeId}

/-- Parents are older. -/
def Forest (scopes : Scopes) : Prop :=
  ∀ id parent, scopes.parent? id = some parent → parent < id

/-- A name is held by the scope that binds it or, if it does not, by what holds it in the parent. -/
theorem Forest.holder?_eq (h : scopes.Forest) (name : Bytes) (id : ScopeId) :
    scopes.holder? id name =
      (Option.guard (fun scope => (scopes.bound? scope name).isSome) id).or
        ((scopes.parent? id).bind fun parent => scopes.holder? parent name) := by
  rw [holder?, Option.guard]
  cases scopes.bound? id name with
  | some v => rfl
  | none =>
      cases hparent : scopes.parent? id with
      | none => rfl
      | some parent => simp [h id parent hparent]

/-- The holder of a name is the first scope on the chain that binds it. -/
theorem Forest.holder?_eq_find? (h : scopes.Forest) (hchain : Chain scopes.parent? id ids)
    (name : Bytes) :
    scopes.holder? id name = ids.find? fun scope => (scopes.bound? scope name).isSome := by
  rw [hchain.findSome?_eq (fun id => scopes.holder? id name) (h.holder?_eq name),
    List.findSome?_guard]

theorem get?_eq_bind (scopes : Scopes) (id : ScopeId) (name : Bytes) :
    scopes.get? id name =
      (scopes.holder? id name).bind fun holder => scopes.bound? holder name := by
  unfold get?
  cases scopes.holder? id name <;> rfl

/-- A name has the value of the first scope on the chain that binds it. -/
theorem Forest.get?_eq_findSome? (h : scopes.Forest) (hchain : Chain scopes.parent? id ids)
    (name : Bytes) : scopes.get? id name = ids.findSome? fun scope => scopes.bound? scope name := by
  refine hchain.findSome?_eq (fun id => scopes.get? id name) fun id => ?_
  rw [get?_eq_bind, h.holder?_eq, Option.guard]
  cases hbound : scopes.bound? id name with
  | some v => simp [hbound]
  | none =>
      cases scopes.parent? id with
      | none => rfl
      | some parent => simp [get?_eq_bind]

theorem ancestor?_eq_getElem? (hchain : Chain scopes.parent? id ids) (d : Nat) :
    scopes.ancestor? id d = ids[d]? := by
  induction hchain generalizing d with
  | last hnone =>
      cases d with
      | zero => rfl
      | succ d => exact scopes.ancestor?_succ_of_outermost hnone d
  | step hparent _ ih =>
      cases d with
      | zero => rfl
      | succ d => exact (scopes.ancestor?_succ hparent d).trans (ih d)

end Scopes

end Lox
