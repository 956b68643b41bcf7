import Mathlib.Logic.Function.Basic
import Lox.Eval.Outcome
import Lox.Proofs.Eval.Lockstep
import Lox.Proofs.Renaming.Respelled

/-!
# States with a variable renamed

Two states of one shape. Some scopes are marked: in them the old name and the new one have changed
places. Code in the states is respelled for the scopes that it is closed in.
-/

namespace Lox

open Resolution

/-! ### Scopes -/

/-- Which scopes are marked. -/
abbrev ScopeMarks := ScopeId → Bool

structure Scopes.Renamed (r : Renaming) (φ : ScopeMarks) (scopes scopes' : Scopes) : Prop where
  next : scopes'.next = scopes.next
  parent : ∀ id, scopes'.parent? id = scopes.parent? id
  bound : ∀ id n, scopes'.bound? id (r.name (φ id) n) = scopes.bound? id n
  older : ∀ id parent, scopes.parent? id = some parent → parent < id
  nonempty : 0 < scopes.next
  globals : φ State.globals = false

/-- The scopes from `id` up to the globals are marked as the list says. -/
structure Scopes.At (scopes : Scopes) (φ : ScopeMarks) (marks : List Bool) (id : ScopeId) :
    Prop where
  inside : id < scopes.next
  marks : ∀ d scope, scopes.ancestor? id d = some scope → φ scope = marked marks (some d)

/-- Scopes are created, each with a mark that stays. -/
structure Scopes.Later (before : Scopes) (φ : ScopeMarks) (after : Scopes) (φ' : ScopeMarks) :
    Prop where
  grows : before.Grows after
  marks : ∀ id < before.next, φ' id = φ id

namespace Scopes

variable {r : Renaming} {φ φ' φ'' : ScopeMarks} {scopes scopes' before after last : Scopes}

theorem Later.refl (scopes : Scopes) (φ : ScopeMarks) : Later scopes φ scopes φ :=
  ⟨.refl scopes, fun _ _ => rfl⟩

theorem Later.trans (h : Later before φ after φ') (h' : Later after φ' last φ'') :
    Later before φ last φ'' where
  grows := h.grows.trans h'.grows
  marks id hid := (h'.marks id (Nat.lt_of_lt_of_le hid h.grows.next)).trans (h.marks id hid)

theorem later_define (scopes : Scopes) (φ : ScopeMarks) (id : ScopeId) (name : Bytes) (v : Value) :
    Later scopes φ (scopes.define id name v) φ :=
  ⟨grows_define scopes id name v, fun _ _ => rfl⟩

/-- A new scope gets the mark. -/
theorem later_push (scopes : Scopes) (φ : ScopeMarks) (parent : Option ScopeId)
    (bindings : Bindings Value) (isMarked : Bool) :
    Later scopes φ (scopes.push parent bindings) (Function.update φ scopes.next isMarked) := by
  refine ⟨grows_push scopes parent bindings, fun id hid => ?_⟩
  exact Function.update_of_ne (Nat.ne_of_lt hid) _ _

theorem ancestor?_le (hparents : ∀ id parent, scopes.parent? id = some parent → parent < id)
    {id scope : ScopeId} {d : Nat} (h : scopes.ancestor? id d = some scope) : scope ≤ id := by
  induction d generalizing id with
  | zero =>
      cases h
      exact Nat.le_refl _
  | succ d ih =>
      cases hparent : scopes.parent? id with
      | none =>
          rw [ancestor?_succ_of_outermost _ hparent] at h
          cases h
      | some parent =>
          rw [ancestor?_succ scopes hparent] at h
          exact Nat.le_trans (ih h) (Nat.le_of_lt (hparents id parent hparent))

theorem ancestor?_of_grows (hgrows : before.Grows after)
    (hparents : ∀ id parent, before.parent? id = some parent → parent < id) {id : ScopeId}
    (hid : id < before.next) (d : Nat) : after.ancestor? id d = before.ancestor? id d := by
  induction d generalizing id with
  | zero => rfl
  | succ d ih =>
      have hsame := hgrows.parent id hid
      cases hparent : before.parent? id with
      | none =>
          rw [ancestor?_succ_of_outermost _ hparent,
            ancestor?_succ_of_outermost _ (hsame.trans hparent)]
      | some parent =>
          rw [ancestor?_succ before hparent, ancestor?_succ after (hsame.trans hparent)]
          exact ih (Nat.lt_trans (hparents id parent hparent) hid)

theorem At.later {marks : List Bool} {id : ScopeId} (h : before.At φ marks id)
    (hlater : Later before φ after φ')
    (hparents : ∀ id parent, before.parent? id = some parent → parent < id) :
    after.At φ' marks id := by
  refine ⟨Nat.lt_of_lt_of_le h.inside hlater.grows.next, fun d scope hscope => ?_⟩
  rw [ancestor?_of_grows hlater.grows hparents h.inside] at hscope
  have hle := ancestor?_le hparents hscope
  rw [hlater.marks scope (Nat.lt_of_le_of_lt hle h.inside)]
  exact h.marks d scope hscope

/-- A new scope inside one whose marks are known. -/
theorem At.push {outer : List Bool} {parent : ScopeId} (h : scopes.At φ outer parent)
    (hparents : ∀ id parent, scopes.parent? id = some parent → parent < id)
    (bindings : Bindings Value) (isMarked : Bool) :
    (scopes.push (some parent) bindings).At (Function.update φ scopes.next isMarked)
      (isMarked :: outer) scopes.next := by
  have houter := h.later (later_push scopes φ (some parent) bindings isMarked) hparents
  refine ⟨Nat.lt_of_lt_of_eq (Nat.lt_succ_self _) (next_push scopes _ bindings).symm, ?_⟩
  intro d scope hscope
  cases d with
  | zero =>
      cases hscope
      exact Function.update_self _ _ _
  | succ d =>
      have hparent : (scopes.push (some parent) bindings).parent? scopes.next = some parent := by
        rw [parent?_push, if_pos rfl]
      rw [ancestor?_succ _ hparent] at hscope
      exact houter.marks d scope hscope

namespace Renamed

theorem ancestor? (h : Renamed r φ scopes scopes') (id : ScopeId) (d : Nat) :
    scopes'.ancestor? id d = scopes.ancestor? id d := by
  induction d generalizing id with
  | zero => rfl
  | succ d ih =>
      cases hparent : scopes.parent? id with
      | none =>
          rw [ancestor?_succ_of_outermost _ hparent,
            ancestor?_succ_of_outermost _ ((h.parent id).trans hparent)]
      | some parent =>
          rw [ancestor?_succ scopes hparent, ancestor?_succ scopes' ((h.parent id).trans hparent)]
          exact ih parent

theorem bound?_of_ne (h : Renamed r φ scopes scopes') (id : ScopeId) {n : Bytes}
    (hn : r.name (φ id) n = n) : scopes'.bound? id n = scopes.bound? id n := by
  rw [← h.bound id n, hn]

/-- Keywords are bound to the same values. -/
theorem getAt?_of_fixed (h : Renamed r φ scopes scopes') (id : ScopeId) (d : Nat) {n : Bytes}
    (hn : ∀ isMarked, r.name isMarked n = n) : scopes'.getAt? id d n = scopes.getAt? id d n := by
  unfold Scopes.getAt?
  rw [h.ancestor?]
  cases scopes.ancestor? id d with
  | none => rfl
  | some scope =>
      dsimp only
      rw [h.bound?_of_ne scope (hn _)]

theorem bound?_globals (h : Renamed r φ scopes scopes') (n : Bytes) :
    scopes'.bound? State.globals n = scopes.bound? State.globals n := by
  refine h.bound?_of_ne State.globals ?_
  rw [h.globals]
  rfl

theorem holder?_globals (h : Renamed r φ scopes scopes') (n : Bytes) :
    scopes'.holder? State.globals n = scopes.holder? State.globals n := by
  rw [holder?_globals_eq, holder?_globals_eq, h.bound?_globals]

theorem get?_globals (h : Renamed r φ scopes scopes') (n : Bytes) :
    scopes'.get? State.globals n = scopes.get? State.globals n := by
  unfold Scopes.get?
  rw [h.holder?_globals, holder?_globals_eq]
  split
  case h_1 holder hholder =>
    split at hholder
    · cases hholder
      exact h.bound?_globals n
    · cases hholder
  case h_2 => rfl

theorem define (h : Renamed r φ scopes scopes') (id : ScopeId) {n n' : Bytes}
    (hn : n' = r.name (φ id) n) (v : Value) :
    Renamed r φ (scopes.define id n v) (scopes'.define id n' v) where
  next := by simpa using h.next
  parent other := by simpa using h.parent other
  bound other used := by
    rw [bound?_define, bound?_define, h.next, h.bound, hn]
    refine if_congr ?_ rfl rfl
    constructor
    · rintro ⟨rfl, hused, hlt⟩
      exact ⟨rfl, (r.name (φ other)).injective hused, hlt⟩
    · rintro ⟨rfl, rfl, hlt⟩
      exact ⟨rfl, rfl, hlt⟩
  older other parent hparent := h.older other parent (by simpa using hparent)
  nonempty := by simpa using h.nonempty
  globals := h.globals

theorem push (h : Renamed r φ scopes scopes') {parent : ScopeId} (hparent : parent < scopes.next)
    {bindings bindings' : Bindings Value} (isMarked : Bool)
    (hbindings : ∀ n, bindings'.lookup (r.name isMarked n) = bindings.lookup n) :
    Renamed r (Function.update φ scopes.next isMarked) (scopes.push (some parent) bindings)
      (scopes'.push (some parent) bindings') where
  next := by simpa using h.next
  parent other := by rw [parent?_push, parent?_push, h.next, h.parent]
  bound other used := by
    rw [bound?_push, bound?_push, h.next]
    by_cases hother : other = scopes.next
    · rw [if_pos hother, if_pos hother, hother, Function.update_self, hbindings]
    · rw [if_neg hother, if_neg hother, Function.update_of_ne hother, h.bound]
  older other up hup := by
    rw [parent?_push] at hup
    split at hup
    case isTrue hother =>
      cases hup
      rw [hother]
      exact hparent
    case isFalse => exact h.older other up hup
  nonempty := by simp
  globals := by
    have hne : State.globals ≠ scopes.next := Nat.ne_of_lt h.nonempty
    rw [Function.update_of_ne hne, h.globals]

end Renamed

end Scopes

/-! ### Functions and classes -/

/-- Code respelled for the scopes that it is closed in. Methods stand in one more scope, that of
`this`, which is created when they are bound to a receiver. -/
structure Function.Renamed (r : Renaming) (scopes : Scopes) (φ : ScopeMarks) (lead : List Bool)
    (f f' : Function) : Prop where
  closure : f'.closure = f.closure
  isInitializer : f'.isInitializer = f.isInitializer
  code : ∃ marks, scopes.At φ marks f.closure ∧ f.decl.Respelled r.bound (lead ++ marks) f'.decl

/-- Methods that are not yet bound to a receiver. The scope of `this` is not marked. -/
abbrev Method.Renamed (r : Renaming) (scopes : Scopes) (φ : ScopeMarks) :
    Function → Function → Prop :=
  Function.Renamed r scopes φ [false]

section

variable {r : Renaming} {φ φ' : ScopeMarks} {before after : Scopes}

theorem Function.Renamed.later {lead : List Bool} {f f' : Function}
    (h : f.Renamed r before φ lead f') (hlater : before.Later φ after φ')
    (hparents : ∀ id parent, before.parent? id = some parent → parent < id) :
    f.Renamed r after φ' lead f' := by
  obtain ⟨marks, hat, hcode⟩ := h.code
  exact ⟨h.closure, h.isInitializer, marks, hat.later hlater hparents, hcode⟩

end

theorem FunctionDecl.Respelled.name_eq {ρ : Type} {S : Spelling ρ} {marks : List Bool}
    {d d' : FunctionDecl ρ} (h : d.Respelled S marks d') : d'.name = d.name := by
  cases h
  rfl

theorem FunctionDecl.Respelled.length_params {ρ : Type} {S : Spelling ρ} {marks : List Bool}
    {d d' : FunctionDecl ρ} (h : d.Respelled S marks d') : d'.params.length = d.params.length := by
  cases h with
  | mk hparams _ => exact hparams.length_eq.symm

theorem Function.Renamed.sameSignature {r : Renaming} {scopes : Scopes} {φ : ScopeMarks}
    {lead : List Bool} (f f' : Function) (h : f.Renamed r scopes φ lead f') : f.SameSignature f' := by
  obtain ⟨marks, -, hcode⟩ := h.code
  exact ⟨hcode.name_eq, hcode.length_params⟩

/-! ### States -/

structure State.Renamed (r : Renaming) (φ : ScopeMarks) (σ σ' : State) : Prop
    extends σ.SideBySide (Function.Renamed r σ.scopes φ []) (Method.Renamed r σ.scopes φ) σ' where
  scopes : σ.scopes.Renamed r φ σ'.scopes
  env : σ'.env = σ.env

namespace State.Renamed

variable {r : Renaming} {φ φ' : ScopeMarks} {σ σ' : State}

/-- Other scopes, which come later: functions and classes stay what they are. -/
theorem withScopes (h : σ.Renamed r φ σ') {after after' : Scopes} (hafter : after.Renamed r φ' after')
    (hlater : σ.scopes.Later φ after φ') :
    ({ σ with scopes := after } : State).Renamed r φ' { σ' with scopes := after' } where
  toSideBySide := h.toSideBySide.withScopes (fun _ _ hf => hf.later hlater h.scopes.older)
    (fun _ _ hf => hf.later hlater h.scopes.older) after after'
  scopes := hafter
  env := h.env

theorem withEnv (h : σ.Renamed r φ σ') (env : ScopeId) :
    ({ σ with env := env } : State).Renamed r φ { σ' with env := env } :=
  { h with env := rfl }

theorem define (h : σ.Renamed r φ σ') (id : ScopeId) {n n' : Bytes} (hn : n' = r.name (φ id) n)
    (v : Value) : (σ.define id n v).Renamed r φ (σ'.define id n' v) :=
  h.withScopes (h.scopes.define id hn v) (Scopes.later_define σ.scopes φ id n v)

/-- The mark of the scope that is created next. -/
abbrev marking (σ : State) (φ : ScopeMarks) (isMarked : Bool) : ScopeMarks :=
  Function.update φ σ.scopes.next isMarked

theorem newScope (h : σ.Renamed r φ σ') {parent : ScopeId} (hparent : parent < σ.scopes.next)
    {bindings bindings' : Bindings Value} (isMarked : Bool)
    (hbindings : ∀ n, bindings'.lookup (r.name isMarked n) = bindings.lookup n) :
    (σ.newScope parent bindings).2.Renamed r (marking σ φ isMarked)
      (σ'.newScope parent bindings').2 :=
  h.withScopes (h.scopes.push hparent isMarked hbindings)
    (Scopes.later_push σ.scopes φ (some parent) bindings isMarked)

theorem enter (h : σ.Renamed r φ σ') {parent : ScopeId} (hparent : parent < σ.scopes.next)
    {bindings bindings' : Bindings Value} (isMarked : Bool)
    (hbindings : ∀ n, bindings'.lookup (r.name isMarked n) = bindings.lookup n) :
    (σ.enter parent bindings).Renamed r (marking σ φ isMarked) (σ'.enter parent bindings') := by
  have hscope := h.newScope hparent isMarked hbindings
  have hentered := hscope.withEnv σ.scopes.next
  rw [← h.scopes.next] at hentered
  have heq : (σ.enter parent bindings) =
      { (σ.newScope parent bindings).2 with env := σ'.scopes.next } := by
    rw [h.scopes.next]
    rfl
  rw [heq]
  exact hentered

theorem newFunction (h : σ.Renamed r φ σ') {f f' : Function}
    (hf : f.Renamed r σ.scopes φ [] f') :
    (σ'.newFunction f').1 = (σ.newFunction f).1 ∧
      (σ.newFunction f).2.Renamed r φ (σ'.newFunction f').2 :=
  ⟨h.functions.size, { h with functions := h.functions.push hf }⟩

theorem newClass (h : σ.Renamed r φ σ') {c c' : Class}
    (hc : c.SideBySide (Method.Renamed r σ.scopes φ) c') :
    (σ'.newClass c').1 = (σ.newClass c).1 ∧
      (σ.newClass c).2.Renamed r φ (σ'.newClass c').2 :=
  ⟨h.classes.size, { h with classes := h.classes.push hc }⟩

theorem withObjects (h : σ.Renamed r φ σ') (objects : Array Object) :
    ({ σ with objects := objects } : State).Renamed r φ { σ' with objects := objects } :=
  { h with objects := rfl }

end State.Renamed

end Lox
