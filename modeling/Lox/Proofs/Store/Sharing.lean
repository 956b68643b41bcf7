import Lox.Proofs.Store.Chain

/-!
# Shared scopes

A forest of scopes that has come about in any way is read and changed by the same rule: a name stands
for what the nearest scope binds that binds it. An assignment replaces that one binding. It is seen
from just the scopes for which it is the nearest, and nothing else changes.
-/

namespace Lox

namespace Scopes

variable {scopes after : Scopes} {id holder : ScopeId} {name : Bytes} {distance : Nat}

/-- The nearest scope that binds a name lies so many parents up. -/
structure Nearest (scopes : Scopes) (id : ScopeId) (name : Bytes) (distance : Nat)
    (holder : ScopeId) : Prop where
  ancestor : scopes.ancestor? id distance = some holder
  binds : (scopes.bound? holder name).isSome
  closest : ∀ d < distance, ∀ scope, scopes.ancestor? id d = some scope →
    scopes.bound? scope name = none

theorem Nearest.get?_at (h : scopes.Nearest id name distance holder) :
    scopes.getAt? id distance name = scopes.bound? holder name := by
  obtain ⟨v, hv⟩ := Option.isSome_iff_exists.mp h.binds
  simp only [getAt?, h.ancestor, hv, Option.getD_some]

theorem Forest.holder?_eq_some_iff (h : scopes.Forest) :
    scopes.holder? id name = some holder ↔ ∃ d, scopes.Nearest id name d holder := by
  obtain ⟨ids, hchain⟩ := Chain.exists_of_descends h id
  rw [h.holder?_eq_find? hchain, List.find?_eq_some_iff_getElem]
  constructor
  · rintro ⟨hbinds, d, hd, rfl, hcloser⟩
    refine ⟨d, ?_, hbinds, fun d' hd' scope hscope => ?_⟩
    · rw [ancestor?_eq_getElem? hchain, List.getElem?_eq_getElem hd]
    · rw [ancestor?_eq_getElem? hchain, List.getElem?_eq_getElem (by omega)] at hscope
      cases hscope
      simpa using hcloser d' hd'
  · rintro ⟨d, hancestor, hbinds, hclosest⟩
    rw [ancestor?_eq_getElem? hchain] at hancestor
    obtain ⟨hd, rfl⟩ := List.getElem?_eq_some_iff.mp hancestor
    refine ⟨hbinds, d, hd, rfl, fun d' hd' => ?_⟩
    have hnone := hclosest d' hd' ids[d'] (by
      rw [ancestor?_eq_getElem? hchain, List.getElem?_eq_getElem])
    simp [hnone]

theorem Forest.get?_of_nearest (h : scopes.Forest)
    (hnearest : scopes.Nearest id name distance holder) :
    scopes.get? id name = scopes.bound? holder name := by
  rw [get?_eq_bind, h.holder?_eq_some_iff.mpr ⟨distance, hnearest⟩, Option.bind_some]

theorem Forest.isSome_get?_iff (h : scopes.Forest) :
    (scopes.get? id name).isSome ↔ ∃ d holder, scopes.Nearest id name d holder := by
  constructor
  · intro hsome
    cases hholder : scopes.holder? id name with
    | none =>
        rw [get?_eq_bind, hholder] at hsome
        cases hsome
    | some holder =>
        obtain ⟨d, hnearest⟩ := h.holder?_eq_some_iff.mp hholder
        exact ⟨d, holder, hnearest⟩
  · rintro ⟨d, holder, hnearest⟩
    rw [h.get?_of_nearest hnearest]
    exact hnearest.binds

/-- Of the scopes up from one that bind a name, one is the nearest. -/
theorem exists_nearest {scope : ScopeId} (hscope : scopes.ancestor? id distance = some scope)
    (hbinds : (scopes.bound? scope name).isSome) :
    ∃ d holder, scopes.Nearest id name d holder := by
  induction distance using Nat.strongRecOn generalizing scope with
  | ind distance ih =>
      by_cases hcloser : ∃ d < distance, ∃ other, scopes.ancestor? id d = some other ∧
          (scopes.bound? other name).isSome
      · obtain ⟨d, hd, other, hother, hbound⟩ := hcloser
        exact ih d hd hother hbound
      · refine ⟨distance, scope, hscope, hbinds, fun d hd other hother => ?_⟩
        refine Option.eq_none_iff_forall_ne_some.mpr fun v hv => hcloser ⟨d, hd, other, hother, ?_⟩
        rw [hv, Option.isSome_some]

/-! ### Assignments -/

theorem Forest.define (h : scopes.Forest) (id : ScopeId) (name : Bytes) (v : Value) :
    (scopes.define id name v).Forest := by
  intro other parent hparent
  rw [parent?_define] at hparent
  exact h other parent hparent

section Replaced

variable (hbinds : (scopes.bound? holder name).isSome) (v : Value)

include hbinds in
theorem bound?_replaced (scope : ScopeId) (other : Bytes) :
    (scopes.define holder name v).bound? scope other =
      if scope = holder ∧ other = name then some v else scopes.bound? scope other := by
  obtain ⟨w, hw⟩ := Option.isSome_iff_exists.mp hbinds
  rw [bound?_define]
  simp only [scopes.lt_next_of_bound? hw, and_true]

include hbinds in
/-- A name that has a new value is still bound where it was. -/
theorem Forest.holder?_replaced (h : scopes.Forest) (scope : ScopeId) (other : Bytes) :
    (scopes.define holder name v).holder? scope other = scopes.holder? scope other := by
  obtain ⟨ids, hchain⟩ := Chain.exists_of_descends h scope
  have hparent : (scopes.define holder name v).parent? = scopes.parent? :=
    funext (scopes.parent?_define holder name v)
  rw [h.holder?_eq_find? hchain, (h.define holder name v).holder?_eq_find? (hparent ▸ hchain)]
  congr 1
  funext candidate
  rw [bound?_replaced hbinds]
  split
  case isTrue hsame => rw [hsame.1, hsame.2, hbinds, Option.isSome_some]
  case isFalse => rfl

include hbinds in
theorem Forest.get?_replaced (h : scopes.Forest) (scope : ScopeId) (other : Bytes) :
    (scopes.define holder name v).get? scope other =
      if other = name ∧ scopes.holder? scope name = some holder then some v
      else scopes.get? scope other := by
  rw [get?_eq_bind, get?_eq_bind, h.holder?_replaced hbinds]
  simp only [bound?_replaced hbinds]
  split
  case isTrue hsame =>
    rw [hsame.1, hsame.2]
    simp
  case isFalse hother =>
    cases hholder : scopes.holder? scope other with
    | none => rfl
    | some candidate =>
        refine if_neg fun hsame => hother ⟨hsame.2, ?_⟩
        rw [← hsame.1, ← hsame.2, hholder]

end Replaced

theorem Forest.assign?_of_nearest (h : scopes.Forest)
    (hnearest : scopes.Nearest id name distance holder) (v : Value) :
    scopes.assign? id name v = some (scopes.define holder name v) := by
  rw [assign?_eq_map, h.holder?_eq_some_iff.mpr ⟨distance, hnearest⟩, Option.map_some]

/-- An assignment fails where a look-up does. -/
theorem Forest.assign?_eq_none_iff (h : scopes.Forest) (v : Value) :
    scopes.assign? id name v = none ↔ scopes.get? id name = none := by
  by_cases hnearest : ∃ d holder, scopes.Nearest id name d holder
  · obtain ⟨d, holder, hnearest⟩ := hnearest
    have hbinds := Option.isSome_iff_ne_none.mp hnearest.binds
    rw [h.assign?_of_nearest hnearest, h.get?_of_nearest hnearest]
    exact iff_of_false nofun hbinds
  · have hholder : scopes.holder? id name = none := by
      refine Option.eq_none_iff_forall_ne_some.mpr fun holder hholder => hnearest ?_
      obtain ⟨d, h⟩ := h.holder?_eq_some_iff.mp hholder
      exact ⟨d, holder, h⟩
    rw [assign?_eq_map, get?_eq_bind, hholder]
    exact iff_of_true rfl rfl

/-- The one binding of a name in a scope has another value. It is read from the scopes for which it
is the nearest; from all others, and for all other names, what is read is as before. -/
structure Replaces (scopes after : Scopes) (holder : ScopeId) (name : Bytes) (v : Value) : Prop where
  next : after.next = scopes.next
  parent : ∀ scope, after.parent? scope = scopes.parent? scope
  bound : ∀ scope other, after.bound? scope other =
    if scope = holder ∧ other = name then some v else scopes.bound? scope other
  seen : ∀ scope d, scopes.Nearest scope name d holder → after.get? scope name = some v
  unseen : ∀ scope other, ¬(other = name ∧ ∃ d, scopes.Nearest scope name d holder) →
    after.get? scope other = scopes.get? scope other

theorem Forest.replaces (h : scopes.Forest) (hbinds : (scopes.bound? holder name).isSome)
    (v : Value) : scopes.Replaces (scopes.define holder name v) holder name v where
  next := scopes.next_define holder name v
  parent := scopes.parent?_define holder name v
  bound := bound?_replaced hbinds v
  seen scope d hnearest := by
    rw [h.get?_replaced hbinds, if_pos ⟨rfl, h.holder?_eq_some_iff.mpr ⟨d, hnearest⟩⟩]
  unseen scope other hother := by
    rw [← h.holder?_eq_some_iff] at hother
    rw [h.get?_replaced hbinds, if_neg hother]

/-! ### Histories -/

/-- What can be done with scopes that exist. -/
inductive Operation where
  | create (parent : Option ScopeId)
  | define (id : ScopeId) (name : Bytes) (v : Value)
  | assign (id : ScopeId) (name : Bytes) (v : Value)
  | assignAt (id : ScopeId) (distance : Nat) (name : Bytes) (v : Value)

/-- The scopes behind an operation, which are the same if it assigns a name that has no holder. -/
def Operation.perform? (scopes : Scopes) : Operation → Option Scopes
  | .create parent =>
      if parent.all (· < scopes.next) then some (scopes.push parent []) else none
  | .define id name v => if id < scopes.next then some (scopes.define id name v) else none
  | .assign id name v =>
      if id < scopes.next then some ((scopes.assign? id name v).getD scopes) else none
  | .assignAt id distance name v =>
      if id < scopes.next then scopes.assignAt? id distance name v else none

def performAll? (operations : List Operation) (scopes : Scopes) : Option Scopes :=
  operations.foldlM Operation.perform? scopes

theorem Forest.push (h : scopes.Forest) {parent : Option ScopeId}
    (hparent : ∀ id, parent = some id → id < scopes.next) (bindings : Bindings Value) :
    (scopes.push parent bindings).Forest := by
  intro id above habove
  rw [parent?_push] at habove
  split at habove
  case isTrue hnew => exact hnew ▸ hparent above habove
  case isFalse => exact h id above habove

theorem Forest.perform? (h : scopes.Forest) {operation : Operation}
    (hafter : operation.perform? scopes = some after) : after.Forest := by
  cases operation with
  | create parent =>
      obtain ⟨hparent, heq⟩ := Option.ite_none_right_eq_some.mp hafter
      cases heq
      refine h.push (fun id hid => ?_) []
      simpa [hid] using hparent
  | define id name v =>
      obtain ⟨-, heq⟩ := Option.ite_none_right_eq_some.mp hafter
      cases heq
      exact h.define id name v
  | assign id name v =>
      obtain ⟨-, heq⟩ := Option.ite_none_right_eq_some.mp hafter
      cases heq
      rw [assign?_eq_map]
      cases scopes.holder? id name with
      | none => exact h
      | some holder => exact h.define holder name v
  | assignAt id distance name v =>
      obtain ⟨-, heq⟩ := Option.ite_none_right_eq_some.mp hafter
      unfold assignAt? at heq
      split at heq
      case h_1 scope _ =>
        cases heq
        exact h.define scope name v
      case h_2 => cases heq

/-- Whatever is done to a forest, it stays one. -/
theorem Forest.performAll? {operations : List Operation} (h : scopes.Forest)
    (hafter : performAll? operations scopes = some after) : after.Forest := by
  induction operations generalizing scopes with
  | nil =>
      cases hafter
      exact h
  | cons operation operations ih =>
      obtain ⟨next, hnext, hrest⟩ := Option.bind_eq_some_iff.mp hafter
      exact ih (h.perform? hnext) hrest

theorem forest_empty : empty.Forest :=
  fun _ _ hparent => by simp [parent?, empty] at hparent

/-- In scopes that any operations have made, a name is read from the nearest scope that binds it, as
it is at that distance. An assignment fails where a look-up does and changes nothing then; else it
replaces that one binding. -/
theorem lookup_update_laws {operations : List Operation}
    (h : performAll? operations empty = some scopes) (hid : id < scopes.next) (name : Bytes) :
    ((scopes.get? id name).isSome ↔
      ∃ d scope, scopes.ancestor? id d = some scope ∧ (scopes.bound? scope name).isSome) ∧
    ((scopes.get? id name).isSome → ∃ d holder, scopes.Nearest id name d holder ∧
      scopes.get? id name = scopes.getAt? id d name) ∧
    ∀ v,
      (scopes.assign? id name v = none ↔ scopes.get? id name = none) ∧
      (scopes.assign? id name v = none →
        (Operation.assign id name v).perform? scopes = some scopes) ∧
      ∀ after, scopes.assign? id name v = some after →
        (Operation.assign id name v).perform? scopes = some after ∧
        ∃ d holder, scopes.Nearest id name d holder ∧ scopes.Replaces after holder name v := by
  have hforest := forest_empty.performAll? h
  have hperform (v : Value) : (Operation.assign id name v).perform? scopes =
      some ((scopes.assign? id name v).getD scopes) := if_pos hid
  refine ⟨?_, fun hsome => ?_, fun v => ⟨hforest.assign?_eq_none_iff v, fun hnone => ?_, ?_⟩⟩
  · rw [hforest.isSome_get?_iff]
    constructor
    · rintro ⟨d, holder, hnearest⟩
      exact ⟨d, holder, hnearest.ancestor, hnearest.binds⟩
    · rintro ⟨d, scope, hscope, hbinds⟩
      exact exists_nearest hscope hbinds
  · obtain ⟨d, holder, hnearest⟩ := hforest.isSome_get?_iff.mp hsome
    exact ⟨d, holder, hnearest, (hforest.get?_of_nearest hnearest).trans hnearest.get?_at.symm⟩
  · rw [hperform, hnone, Option.getD_none]
  · intro after hafter
    have hsome : (scopes.get? id name).isSome := by
      rw [Option.isSome_iff_ne_none, ne_eq, ← hforest.assign?_eq_none_iff v, hafter]
      exact nofun
    obtain ⟨d, holder, hnearest⟩ := hforest.isSome_get?_iff.mp hsome
    rw [hperform, hafter, Option.getD_some]
    rw [hforest.assign?_of_nearest hnearest] at hafter
    cases hafter
    exact ⟨rfl, d, holder, hnearest, hforest.replaces hnearest.binds v⟩

/-- A name of the outermost scope is assigned from two scopes further in, beside one that hides it,
and a name that no scope binds is not. -/
theorem lookup_update_laws_hidden :
    let name := bytes "a"
    let other := bytes "b"
    let operations : List Operation :=
      [.create none, .define 0 name (.bool false), .create (some 0), .create (some 1),
        .create (some 0), .define 3 name .nil, .assign 3 other .nil, .create (some 3),
        .assignAt 4 1 name (.str name)]
    ∃ scopes after, performAll? operations empty = some scopes ∧ 2 < scopes.next ∧
      (scopes.get? 2 name).isSome ∧ scopes.assign? 2 name (.bool true) = some after ∧
      (∃ d holder, scopes.Nearest 2 name d holder ∧ scopes.get? 2 name = scopes.getAt? 2 d name) ∧
      (∃ d holder, scopes.Nearest 2 name d holder ∧
        scopes.Replaces after holder name (.bool true)) ∧
      scopes.assign? 2 other .nil = none ∧
      (Operation.assign 2 other .nil).perform? scopes = some scopes := by
  intro name other operations
  have hmade : (performAll? operations empty).any (fun scopes => 2 < scopes.next &&
      (scopes.get? 2 name).isSome && (scopes.assign? 2 name (.bool true)).isSome &&
      (scopes.assign? 2 other .nil).isNone) = true := by
    decide +kernel
  obtain ⟨scopes, hscopes, htest⟩ := (Option.any_eq_true _ _).mp hmade
  simp only [Bool.and_eq_true, decide_eq_true_eq, Option.isNone_iff_eq_none] at htest
  obtain ⟨⟨⟨hid, hsome⟩, hassign⟩, hnone⟩ := htest
  obtain ⟨after, hafter⟩ := Option.isSome_iff_exists.mp hassign
  obtain ⟨-, hget, hupdate⟩ := lookup_update_laws hscopes hid name
  obtain ⟨-, hreplaces⟩ := (hupdate (.bool true)).2.2 after hafter
  obtain ⟨-, -, hother⟩ := lookup_update_laws hscopes hid other
  exact ⟨scopes, after, hscopes, hid, hsome, hafter, hget hsome, hreplaces, hnone,
    (hother .nil).2.1 hnone⟩

end Scopes

end Lox
